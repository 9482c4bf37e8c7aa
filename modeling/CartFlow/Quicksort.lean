/-!
# Sorting by partitions

A range of an array is sorted in place. Short ranges are sorted by insertion, longer ones
are divided around a pivot, which is a median of entries from all over the range. A range
that looks sorted is tried by a few insertions first, and one that looks reversed is turned
around. If a division was uneven, some entries are scattered before the next one, and
after too many of these a heap sorts the rest, so that no order of the entries is a bad
one.

Entries with equal keys need not keep their order; where they end up is the work of the
steps below and nothing else. Main statement: every entry is kept.
-/
namespace CartFlow.Quicksort

variable {α : Type} (lt : α → α → Bool)

def before (xs : Array α) (i j : Nat) : Bool :=
  match xs[i]?, xs[j]? with
  | some a, some b => lt a b
  | _, _ => false

/-! ## Insertion -/

/-- Exchanges an entry with its lower neighbours, down to `low`, as long as it comes before
them. -/
def sink (low : Nat) (xs : Array α) : Nat → Array α
  | 0 => xs
  | i + 1 =>
    if low ≤ i && before lt xs (i + 1) i then sink low (xs.swapIfInBounds (i + 1) i) i else xs

/-- Exchanges the entry below a position with its upper neighbours, below `high`, as long as they
come before it. -/
def rise (high : Nat) (xs : Array α) (i : Nat) : Array α :=
  if i < high ∧ before lt xs i (i - 1) then rise high (xs.swapIfInBounds i (i - 1)) (i + 1)
  else xs
termination_by high - i

def insertionSort (low high : Nat) (xs : Array α) : Array α :=
  (List.range' (low + 1) (high - (low + 1))).foldl (sink lt low) xs

def shortLength : Nat := 12

/-! ## Heaps -/

/-- Moves an entry of a heap down to its place; positions in the heap count from `first`. -/
def siftDown (first size : Nat) (xs : Array α) (root : Nat) : Array α :=
  if h : 2 * root + 1 < size then
    if 2 * root + 2 < size ∧ before lt xs (first + (2 * root + 1)) (first + (2 * root + 2)) then
      if before lt xs (first + root) (first + (2 * root + 2)) then
        siftDown first size (xs.swapIfInBounds (first + root) (first + (2 * root + 2)))
          (2 * root + 2)
      else xs
    else if before lt xs (first + root) (first + (2 * root + 1)) then
      siftDown first size (xs.swapIfInBounds (first + root) (first + (2 * root + 1)))
        (2 * root + 1)
    else xs
  else xs
termination_by size - root

def heapSort (low high : Nat) (xs : Array α) : Array α :=
  let size := high - low
  let heap := (List.range ((size - 1) / 2 + 1)).reverse.foldl (siftDown lt low size) xs
  (List.range size).reverse.foldl (fun xs i =>
    siftDown lt low i (xs.swapIfInBounds low (low + i)) 0) heap

/-! ## Pivots -/

/-- Two positions in the order of their entries, and the number of exchanges so far. -/
def order (xs : Array α) (i j exchanges : Nat) : Nat × Nat × Nat :=
  if before lt xs j i then (j, i, exchanges + 1) else (i, j, exchanges)

def median (xs : Array α) (i j k exchanges : Nat) : Nat × Nat :=
  let (i, j, exchanges) := order lt xs i j exchanges
  let (j, _, exchanges) := order lt xs j k exchanges
  let (_, j, exchanges) := order lt xs i j exchanges
  (j, exchanges)

/-- The length from which on the pivot is a median of medians, and misplaced entries of a range
that looks sorted are moved. -/
def longLength : Nat := 50

/-- The position of the pivot of a range, and the number of exchanges that it took. -/
def choosePivot (low high : Nat) (xs : Array α) : Nat × Nat :=
  let quarter := (high - low) / 4
  let i := low + quarter
  let j := low + quarter * 2
  let k := low + quarter * 3
  if high - low < longLength then median lt xs i j k 0
  else
    let (i, exchanges) := median lt xs (i - 1) i (i + 1) 0
    let (j, exchanges) := median lt xs (j - 1) j (j + 1) exchanges
    let (k, exchanges) := median lt xs (k - 1) k (k + 1) exchanges
    median lt xs i j k exchanges

/-- The number of exchanges if every comparison for a pivot makes one. -/
def allExchanges : Nat := 12

/-! ## Divisions -/

/-- The first position from `i` on, up to `j`, that does not satisfy a predicate. -/
def scanUp (p : Nat → Bool) (i j : Nat) : Nat :=
  if i ≤ j ∧ p i then scanUp p (i + 1) j else i
termination_by j + 1 - i

/-- The first position from `j` down, to `i`, that does not satisfy a predicate. -/
def scanDown (p : Nat → Bool) (i : Nat) : Nat → Nat
  | 0 => 0
  | j + 1 => if i ≤ j + 1 ∧ p (j + 1) then scanDown p i j else j + 1

theorem le_scanUp (p : Nat → Bool) (i j : Nat) : i ≤ scanUp p i j := by
  fun_induction scanUp p i j with
  | case1 i _ ih => omega
  | case2 i => exact Nat.le_refl i

theorem scanDown_le (p : Nat → Bool) (i j : Nat) : scanDown p i j ≤ j := by
  fun_induction scanDown p i j with
  | case1 => exact Nat.le_refl 0
  | case2 j _ ih => omega
  | case3 j => exact Nat.le_refl _

/-- A division of a range: the array, the ends of the two sides, and whether nothing was moved. -/
structure Division (α : Type) where
  entries : Array α
  above : Nat
  below : Nat
  untouched : Bool

/-- Exchanges entries from `i` to `j` until those that belong to the left come first. -/
def divide (left : Array α → Nat → Bool) (xs : Array α) (i j : Nat) (untouched : Bool) :
    Division α :=
  if scanUp (left xs) i j ≤ scanDown (!left xs ·) (scanUp (left xs) i j) j then
    divide left
      (xs.swapIfInBounds (scanUp (left xs) i j) (scanDown (!left xs ·) (scanUp (left xs) i j) j))
      (scanUp (left xs) i j + 1) (scanDown (!left xs ·) (scanUp (left xs) i j) j - 1) false
  else
    ⟨xs, scanUp (left xs) i j, scanDown (!left xs ·) (scanUp (left xs) i j) j, untouched⟩
termination_by j + 1 - i
decreasing_by
  have := le_scanUp (left xs) i j
  have := scanDown_le (!left xs ·) (scanUp (left xs) i j) j
  omega

/-- Divides a range into the entries that come before the pivot, the pivot and the others: the
array, the new position of the pivot, and whether nothing was moved. -/
def partition (low high pivot : Nat) (xs : Array α) : Array α × Nat × Bool :=
  let d := divide (before lt · · low) (xs.swapIfInBounds low pivot) (low + 1) (high - 1) true
  (d.entries.swapIfInBounds d.below low, d.below, d.untouched)

/-- Divides a range without entries that come before the pivot into those that equal it and the
others: the array and the position of the first of the others. -/
def partitionEqual (low high pivot : Nat) (xs : Array α) : Array α × Nat :=
  let d := divide (fun xs i => !before lt xs low i) (xs.swapIfInBounds low pivot) (low + 1)
    (high - 1) true
  (d.entries, d.above)

/-! ## Ranges that look sorted or reversed, and scattering -/

/-- Mends a range that is sorted but for a few places, at most `places` of them; the array, and
whether the range is sorted now. -/
def mend (low high : Nat) : (places : Nat) → Array α → Nat → Array α × Bool
  | 0, xs, _ => (xs, false)
  | places + 1, xs, i =>
    let i := scanUp (fun k => !before lt xs k (k - 1)) i (high - 1)
    if high ≤ i then (xs, true)
    else if high - low < longLength then (xs, false)
    else
      let xs := xs.swapIfInBounds i (i - 1)
      let xs := if 2 ≤ i - low then sink lt 0 xs (i - 1) else xs
      let xs := if 2 ≤ high - i then rise lt high xs (i + 1) else xs
      mend low high places xs i

def mendedPlaces : Nat := 5

def turn (low high : Nat) (xs : Array α) : Array α :=
  (List.range ((high - low) / 2)).foldl (fun xs i =>
    xs.swapIfInBounds (low + i) (high - 1 - i)) xs

/-- The next of a row of numbers without a visible order. -/
def scramble (n : UInt64) : UInt64 :=
  let n := n ^^^ (n <<< 13)
  let n := n ^^^ (n >>> 7)
  n ^^^ (n <<< 17)

def binaryLength (n : Nat) : Nat :=
  if n = 0 then 0 else n.log2 + 1

/-- Exchanges three entries in the middle of a range with others of the range. -/
def scatter (low high : Nat) (xs : Array α) : Array α :=
  let length := high - low
  let middle := low + length / 4 * 2
  let number (n : UInt64) : Nat :=
    let k := n.toNat % (1 <<< binaryLength length)
    if k < length then k else k - length
  let first := scramble (UInt64.ofNat length)
  let second := scramble first
  let third := scramble second
  ((xs.swapIfInBounds (middle - 1) (low + number first)).swapIfInBounds middle
    (low + number second)).swapIfInBounds (middle + 1) (low + number third)

/-! ## Sorting -/

/-- Makes a range ready for a division: the array, the position of the pivot, and whether the
range is found to be sorted. -/
def prepare (even untouched : Bool) (low high : Nat) (xs : Array α) : Array α × Nat × Bool :=
  let xs := if even then xs else scatter low high xs
  let (pivot, exchanges) := choosePivot lt low high xs
  let reversed := exchanges == allExchanges
  let xs := if reversed then turn low high xs else xs
  let pivot := if reversed then high - 1 - (pivot - low) else pivot
  if even && untouched && (exchanges == 0 || reversed) then
    let (xs, sorted) := mend lt low high mendedPlaces xs (low + 1)
    (xs, pivot, sorted)
  else (xs, pivot, false)

/-- Sorts a range. `limit` is the number of uneven divisions that are allowed, `even` and
`untouched` tell how the last division of the range went. Every division makes the range
shorter, so no more steps are needed than it has entries. -/
def sortRange : (steps limit : Nat) → (even untouched : Bool) → (low high : Nat) → Array α →
    Array α
  | 0, _, _, _, _, _, xs => xs
  | steps + 1, limit, even, untouched, low, high, xs =>
    if high - low ≤ shortLength then insertionSort lt low high xs
    else if limit = 0 then heapSort lt low high xs
    else
      let limit := if even then limit else limit - 1
      let (xs, pivot, sorted) := prepare lt even untouched low high xs
      if sorted then xs
      else if 0 < low && !before lt xs (low - 1) pivot then
        let (xs, middle) := partitionEqual lt low high pivot xs
        sortRange steps limit even untouched middle high xs
      else
        let (xs, middle, untouched) := partition lt low high pivot xs
        if middle - low < high - middle then
          let even := (high - low) / 8 ≤ middle - low
          sortRange steps limit even untouched (middle + 1) high
            (sortRange steps limit true true low middle xs)
        else
          let even := (high - low) / 8 ≤ high - middle
          sortRange steps limit even untouched low middle
            (sortRange steps limit true true (middle + 1) high xs)

def sort (xs : Array α) : Array α :=
  sortRange lt (xs.size + 1) (binaryLength xs.size) true true 0 xs.size xs

/-! ## Every entry is kept -/

theorem perm_swap (xs : Array α) (i j : Nat) : (xs.swapIfInBounds i j).Perm xs := by
  unfold Array.swapIfInBounds
  split
  · split
    · exact Array.swap_perm _ _
    · exact .refl _
  · exact .refl _

/-- Steps that keep the entries keep them together. -/
theorem perm_foldl {step : Array α → Nat → Array α} (h : ∀ xs i, (step xs i).Perm xs)
    (is : List Nat) (xs : Array α) : (is.foldl step xs).Perm xs := by
  induction is generalizing xs with
  | nil => exact .refl _
  | cons i is ih => exact (ih _).trans (h xs i)

theorem perm_sink (low : Nat) (xs : Array α) (i : Nat) : (sink lt low xs i).Perm xs := by
  fun_induction sink lt low xs i with
  | case1 xs => exact .refl _
  | case2 xs i _ ih => exact ih.trans (perm_swap xs _ _)
  | case3 xs => exact .refl _

theorem perm_rise (high : Nat) (xs : Array α) (i : Nat) : (rise lt high xs i).Perm xs := by
  fun_induction rise lt high xs i with
  | case1 xs i _ ih => exact ih.trans (perm_swap xs _ _)
  | case2 xs => exact .refl _

theorem perm_siftDown (first size : Nat) (xs : Array α) (root : Nat) :
    (siftDown lt first size xs root).Perm xs := by
  fun_induction siftDown lt first size xs root with
  | case1 xs root _ _ _ ih => exact ih.trans (perm_swap xs _ _)
  | case2 xs => exact .refl _
  | case3 xs root _ _ _ ih => exact ih.trans (perm_swap xs _ _)
  | case4 xs => exact .refl _
  | case5 xs => exact .refl _

theorem perm_heapSort (low high : Nat) (xs : Array α) : (heapSort lt low high xs).Perm xs :=
  (perm_foldl (fun xs i => (perm_siftDown lt low i _ 0).trans (perm_swap xs _ _)) _ _).trans
    (perm_foldl (perm_siftDown lt low (high - low)) _ xs)

theorem perm_divide (left : Array α → Nat → Bool) (xs : Array α) (i j : Nat) (untouched : Bool) :
    (divide left xs i j untouched).entries.Perm xs := by
  fun_induction divide left xs i j untouched with
  | case1 xs i j _ _ ih => exact ih.trans (perm_swap xs _ _)
  | case2 xs => exact .refl _

theorem perm_partition (low high pivot : Nat) (xs : Array α) :
    (partition lt low high pivot xs).1.Perm xs :=
  (perm_swap _ _ _).trans ((perm_divide _ _ _ _ _).trans (perm_swap xs _ _))

theorem perm_partitionEqual (low high pivot : Nat) (xs : Array α) :
    (partitionEqual lt low high pivot xs).1.Perm xs :=
  (perm_divide _ _ _ _ _).trans (perm_swap xs _ _)

theorem perm_mend (low high places : Nat) (xs : Array α) (i : Nat) :
    (mend lt low high places xs i).1.Perm xs := by
  induction places generalizing xs i with
  | zero => exact .refl _
  | succ places ih =>
    unfold mend
    dsimp only
    split
    · exact .refl _
    · split
      · exact .refl _
      · refine (ih _ _).trans ?_
        have hswap := perm_swap xs (scanUp (fun k => !before lt xs k (k - 1)) i (high - 1))
          (scanUp (fun k => !before lt xs k (k - 1)) i (high - 1) - 1)
        split
        · refine (perm_rise lt _ _ _).trans ?_
          split
          · exact (perm_sink lt _ _ _).trans hswap
          · exact hswap
        · split
          · exact (perm_sink lt _ _ _).trans hswap
          · exact hswap

theorem perm_scatter (low high : Nat) (xs : Array α) : (scatter low high xs).Perm xs :=
  (perm_swap _ _ _).trans ((perm_swap _ _ _).trans (perm_swap xs _ _))

theorem perm_turn (low high : Nat) (xs : Array α) : (turn low high xs).Perm xs :=
  perm_foldl (fun xs _ => perm_swap xs _ _) _ xs

theorem perm_ite {p : Prop} [Decidable p] {xs ys zs : Array α} (hx : xs.Perm zs)
    (hy : ys.Perm zs) : (if p then xs else ys).Perm zs := by
  split
  · exact hx
  · exact hy

theorem perm_prepare (even untouched : Bool) (low high : Nat) (xs : Array α) :
    (prepare lt even untouched low high xs).1.Perm xs := by
  have hscatter : (if even then xs else scatter low high xs).Perm xs :=
    perm_ite (.refl _) (perm_scatter low high xs)
  have hturn := fun reversed : Bool => perm_ite (p := reversed)
    ((perm_turn low high _).trans hscatter) hscatter
  unfold prepare
  generalize (if even then xs else scatter low high xs) = ys at hturn
  dsimp only
  split
  · exact (perm_mend lt _ _ _ _ _).trans (hturn _)
  · exact hturn _

theorem perm_sortRange (steps limit : Nat) (even untouched : Bool) (low high : Nat)
    (xs : Array α) : (sortRange lt steps limit even untouched low high xs).Perm xs := by
  induction steps generalizing limit even untouched low high xs with
  | zero => exact .refl _
  | succ steps ih =>
    have hprepare := perm_prepare lt even untouched low high xs
    unfold sortRange
    refine perm_ite (perm_foldl (perm_sink lt low) _ xs) ?_
    refine perm_ite (perm_heapSort lt low high xs) ?_
    refine perm_ite hprepare (perm_ite ?_ (perm_ite ?_ ?_))
    · exact (ih _ _ _ _ _ _).trans ((perm_partitionEqual lt _ _ _ _).trans hprepare)
    · exact (ih _ _ _ _ _ _).trans
        ((ih _ _ _ _ _ _).trans ((perm_partition lt _ _ _ _).trans hprepare))
    · exact (ih _ _ _ _ _ _).trans
        ((ih _ _ _ _ _ _).trans ((perm_partition lt _ _ _ _).trans hprepare))

theorem sort_perm (xs : Array α) : (sort lt xs).Perm xs :=
  perm_sortRange lt _ _ _ _ _ _ xs

end CartFlow.Quicksort
