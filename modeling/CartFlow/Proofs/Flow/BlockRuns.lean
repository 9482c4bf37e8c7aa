import CartFlow.Proofs.Flow.Layout

/-!
# Blocks that are runs of instructions

The instructions of a routine are orderly if the first one is at the entry and each one, behind
an unconditional branch apart, is followed by the instruction at the address behind it. The walk
then opens a block with the instruction at the address of the block and stays in it until it
opens the next one. A block is therefore a run of the instructions that starts with the one at
its address, and links leave the last instruction of a run.
-/
namespace CartFlow.BlockGraph

/-- The first instruction is at the entry, and each one is followed by the one at the address
behind it unless it is an unconditional branch. -/
structure Orderly (entry : Address) (is : List Instruction) : Prop where
  nodup : (is.map (·.address)).Nodup
  first : ∀ i, is[0]? = some i → i.address = entry
  next : ∀ (k : Nat) i j, is[k]? = some i → is[k + 1]? = some j →
    (i.has .branch = true ∧ i.has .unconditional = true) ∨ j.address = i.nextAddress

section Visits

variable {labels : List Address} {above : Option Address} {is : List Instruction}
  {u v : Visit} {k : Nat}

theorem getElem?_visits (hv : (visits labels above is)[k]? = some v) :
    is[k]? = some v.instruction := by
  have hmap : (visits labels above is).map (·.instruction) = is := map_instruction_visits
  rw [← hmap, List.getElem?_map, hv]
  rfl

theorem getElem?_visitsOf {r : Routine} (hv : (visitsOf r)[k]? = some v) :
    r.instructions[k]? = some v.instruction := by
  simpa using getElem?_visits hv

theorem exists_visit {r : Routine} {i : Instruction} (hi : r.instructions[k]? = some i) :
    ∃ v, (visitsOf r)[k]? = some v ∧ v.instruction = i := by
  rw [← Array.getElem?_toList, ← map_instruction_visitsOf, List.getElem?_map] at hi
  exact Option.map_eq_some_iff.1 hi

theorem getElem?_eq_none_of_visitsOf {r : Routine} (hv : (visitsOf r)[k]? = none) :
    r.instructions[k]? = none := by
  rw [← Array.getElem?_toList, ← map_instruction_visitsOf, List.getElem?_map, hv]
  rfl

theorem exists_visit_before {vs : List Visit} (hv : vs[k + 1]? = some v) :
    ∃ u, vs[k]? = some u := by
  have hlt := (List.getElem?_eq_some_iff.1 hv).1
  exact ⟨_, List.getElem?_eq_getElem (Nat.lt_of_succ_lt hlt)⟩

theorem above_zero (hv : (visits labels above is)[0]? = some v) : v.above = above := by
  cases is with
  | nil => cases hv
  | cons i rest =>
    cases hv
    rfl

/-- The block above an instruction is the one behind the instruction before. -/
theorem above_succ (hu : (visits labels above is)[k]? = some u)
    (hv : (visits labels above is)[k + 1]? = some v) :
    v.above = blockBehind (u.home labels) u.instruction := by
  induction is generalizing above k with
  | nil => cases hu
  | cons i rest ih =>
    cases k with
    | zero =>
      cases hu
      exact above_zero hv
    | succ k => exact ih hu hv

theorem home_of_label (hlabel : v.instruction.address ∈ labels) :
    v.home labels = v.instruction.address :=
  if_pos hlabel

/-- Behind an instruction that is no branch the walk stays in its block up to the next label. -/
theorem home_succ (hu : (visits labels above is)[k]? = some u)
    (hv : (visits labels above is)[k + 1]? = some v) (hbranch : u.instruction.has .branch = false)
    (hlabel : v.instruction.address ∉ labels) : v.home labels = u.home labels := by
  simp [Visit.home, hlabel, above_succ hu hv, blockBehind, hbranch]

end Visits

namespace Orderly

variable {entry : Address} {labels : List Address} {is : List Instruction} {u v w : Visit}
  {k m n : Nat}

theorem index_eq (h : Orderly entry is) (hu : (visits labels (some entry) is)[m]? = some u)
    (hv : (visits labels (some entry) is)[n]? = some v)
    (heq : u.instruction.address = v.instruction.address) : m = n := by
  have hm : (is.map (·.address))[m]? = some u.instruction.address := by
    rw [List.getElem?_map, getElem?_visits hu]
    rfl
  have hn : (is.map (·.address))[n]? = some u.instruction.address := by
    rw [List.getElem?_map, getElem?_visits hv, heq]
    rfl
  exact (List.getElem?_inj (List.getElem?_eq_some_iff.1 hm).1 h.nodup).1 (hm.trans hn.symm)

/-- An instruction opens the block at its address, or it belongs to the block of the one before,
which is no branch. -/
theorem home_cases (h : Orderly entry is)
    (hv : (visits labels (some entry) is)[k]? = some v) :
    v.home labels = v.instruction.address ∨
      ∃ m u, k = m + 1 ∧ (visits labels (some entry) is)[m]? = some u ∧
        u.instruction.has .branch = false ∧ v.instruction.address ∉ labels ∧
        v.home labels = u.home labels := by
  by_cases hlabel : v.instruction.address ∈ labels
  · exact .inl (home_of_label hlabel)
  · have hhome : v.home labels = v.above.getD v.instruction.address := if_neg hlabel
    cases k with
    | zero =>
      rw [hhome, above_zero hv]
      exact .inl (h.first _ (getElem?_visits hv)).symm
    | succ m =>
      obtain ⟨u, hu⟩ := exists_visit_before hv
      have habove := above_succ hu hv
      cases hbranch : u.instruction.has .branch with
      | false =>
        exact .inr ⟨m, u, rfl, hu, hbranch, hlabel, home_succ hu hv hbranch hlabel⟩
      | true =>
        left
        rw [hhome, habove]
        rcases h.next m _ _ (getElem?_visits hu) (getElem?_visits hv) with ⟨-, hun⟩ | hnext
        · simp [blockBehind, hbranch, hun]
        · cases hun : u.instruction.has .unconditional <;> simp [blockBehind, hbranch, hun, hnext]

/-- The block of an instruction is a run that starts with the instruction at its address. -/
theorem exists_opening (h : Orderly entry is)
    (hv : (visits labels (some entry) is)[k]? = some v) :
    ∃ m u, m ≤ k ∧ (visits labels (some entry) is)[m]? = some u ∧
      u.instruction.address = v.home labels ∧
      ∀ n w, m ≤ n → n ≤ k → (visits labels (some entry) is)[n]? = some w →
        w.home labels = v.home labels := by
  induction k generalizing v with
  | zero =>
    rcases h.home_cases hv with hopens | ⟨m, u, hk, -⟩
    · refine ⟨0, v, Nat.le_refl 0, hv, hopens.symm, ?_⟩
      intro n w _ hn hw
      obtain rfl : n = 0 := by omega
      rw [hv] at hw
      cases hw
      rfl
    · omega
  | succ k ih =>
    rcases h.home_cases hv with hopens | ⟨m, u, hk, hu, -, -, hsame⟩
    · refine ⟨k + 1, v, Nat.le_refl _, hv, hopens.symm, ?_⟩
      intro n w hm hn hw
      obtain rfl : n = k + 1 := by omega
      rw [hv] at hw
      cases hw
      rfl
    · obtain rfl : m = k := by omega
      obtain ⟨l, x, hl, hx, haddress, hrun⟩ := ih hu
      refine ⟨l, x, by omega, hx, by rw [haddress, hsame], ?_⟩
      intro n w hln hn hw
      by_cases hlast : n = m + 1
      · subst hlast
        rw [hv] at hw
        cases hw
        rfl
      · rw [hrun n w hln (by omega) hw, hsame]

theorem home_eq_between (h : Orderly entry is)
    (hu : (visits labels (some entry) is)[m]? = some u)
    (hv : (visits labels (some entry) is)[n]? = some v) (hhome : v.home labels = u.home labels)
    (hw : (visits labels (some entry) is)[k]? = some w) (hmk : m ≤ k) (hkn : k ≤ n) :
    w.home labels = u.home labels := by
  obtain ⟨l, x, hl, hx, haddress, -⟩ := h.exists_opening hu
  obtain ⟨l', y, -, hy, haddress', hrun⟩ := h.exists_opening hv
  have heq : l' = l := h.index_eq hy hx (by rw [haddress, haddress', hhome])
  rw [← hhome]
  exact hrun k w (by omega) hkn hw

theorem home_ne_of_opens (h : Orderly entry is)
    (hu : (visits labels (some entry) is)[m]? = some u)
    (hv : (visits labels (some entry) is)[n]? = some v) (hmn : m < n)
    (hopens : v.home labels = v.instruction.address) : v.home labels ≠ u.home labels := by
  intro heq
  obtain ⟨l, x, hl, hx, haddress, -⟩ := h.exists_opening hu
  have := h.index_eq hx hv (by rw [haddress, ← heq, hopens])
  omega

theorem opens_of_branch (h : Orderly entry is)
    (hu : (visits labels (some entry) is)[k]? = some u)
    (hv : (visits labels (some entry) is)[k + 1]? = some v)
    (hbranch : u.instruction.has .branch = true) : v.home labels = v.instruction.address := by
  rcases h.home_cases hv with hopens | ⟨m, x, hk, hx, hno, -⟩
  · exact hopens
  · obtain rfl : m = k := by omega
    rw [hu] at hx
    cases hx
    rw [hbranch] at hno
    cases hno

end Orderly

/-- The instruction with a number is not followed by one of the same block. -/
def EndsBlock (labels : List Address) (vs : List Visit) (k : Nat) (u : Visit) : Prop :=
  ∀ v, vs[k + 1]? = some v → v.home labels ≠ u.home labels

def blockAt (labels : List Address) (vs : List Visit) (a : Address) : List Instruction :=
  (vs.filter (·.home labels = a)).map (·.instruction)

section Blocks

variable {entry a : Address} {labels : List Address} {is : List Instruction} {vs : List Visit}
  {u v w : Visit} {i : Instruction} {k n : Nat}

theorem mem_blockAt :
    i ∈ blockAt labels vs a ↔ ∃ v ∈ vs, v.home labels = a ∧ v.instruction = i := by
  simp [blockAt, and_assoc]

theorem blockAt_cons_of_home (hv : v.home labels = a) :
    blockAt labels (v :: vs) a = v.instruction :: blockAt labels vs a := by
  simp [blockAt, hv]

theorem blockAt_eq_nil (h : ∀ v ∈ vs, v.home labels ≠ a) : blockAt labels vs a = [] := by
  simpa [blockAt] using h

/-- A block consists of what comes before an instruction of it and of what comes behind. -/
theorem blockAt_eq_append (hv : vs[k]? = some v) :
    blockAt labels vs (v.home labels) = blockAt labels (vs.take k) (v.home labels) ++
      v.instruction :: blockAt labels (vs.drop (k + 1)) (v.home labels) := by
  obtain ⟨hk, hvk⟩ := List.getElem?_eq_some_iff.1 hv
  have hsplit : vs = vs.take k ++ v :: vs.drop (k + 1) := by
    rw [← hvk, ← List.drop_eq_getElem_cons hk, List.take_append_drop]
  rw [← blockAt_cons_of_home rfl, blockAt, blockAt, blockAt, ← List.map_append,
    ← List.filter_append, ← hsplit]

theorem adjacent_blockAt (hu : vs[k]? = some u) (hv : vs[k + 1]? = some v)
    (hhome : v.home labels = u.home labels) :
    ∃ before behind, blockAt labels vs (u.home labels) =
      before ++ u.instruction :: v.instruction :: behind := by
  obtain ⟨hk, rfl⟩ := List.getElem?_eq_some_iff.1 hv
  refine ⟨blockAt labels (vs.take k) (u.home labels),
    blockAt labels (vs.drop (k + 2)) (u.home labels), ?_⟩
  rw [blockAt_eq_append hu, List.drop_eq_getElem_cons hk, blockAt_cons_of_home hhome]

namespace Orderly

theorem index_le_of_endsBlock (h : Orderly entry is)
    (hu : (visits labels (some entry) is)[k]? = some u)
    (hends : EndsBlock labels (visits labels (some entry) is) k u)
    (hw : (visits labels (some entry) is)[n]? = some w) (hhome : w.home labels = u.home labels) :
    n ≤ k := by
  by_contra hno
  have hlt : k + 1 < (visits labels (some entry) is).length := by
    have := (List.getElem?_eq_some_iff.1 hw).1
    omega
  -- otherwise the instruction behind the end belongs to the block
  have hv := List.getElem?_eq_getElem hlt
  exact hends _ hv (h.home_eq_between hu hw hhome hv (by omega) (by omega))

theorem getLast?_blockAt (h : Orderly entry is)
    (hu : (visits labels (some entry) is)[k]? = some u)
    (hends : EndsBlock labels (visits labels (some entry) is) k u) :
    (blockAt labels (visits labels (some entry) is) (u.home labels)).getLast? =
      some u.instruction := by
  have hbehind : ∀ w ∈ (visits labels (some entry) is).drop (k + 1),
      w.home labels ≠ u.home labels := by
    intro w hw heq
    obtain ⟨n, hn⟩ := List.getElem?_of_mem hw
    rw [List.getElem?_drop] at hn
    have := h.index_le_of_endsBlock hu hends hn heq
    omega
  rw [blockAt_eq_append hu, blockAt_eq_nil hbehind, List.getLast?_concat]

theorem head?_blockAt (h : Orderly entry is)
    (hv : (visits labels (some entry) is)[k]? = some v)
    (hopens : v.home labels = v.instruction.address) :
    (blockAt labels (visits labels (some entry) is) v.instruction.address).head? =
      some v.instruction := by
  have hbefore : ∀ u ∈ (visits labels (some entry) is).take k,
      u.home labels ≠ v.home labels := by
    intro u hu heq
    obtain ⟨m, hm⟩ := List.getElem?_of_mem hu
    rw [List.getElem?_take] at hm
    split at hm
    · next hlt => exact h.home_ne_of_opens hm hv hlt hopens heq.symm
    · cases hm
  rw [← hopens, blockAt_eq_append hv, blockAt_eq_nil hbefore, List.nil_append, List.head?_cons]

theorem address_of_head? (h : Orderly entry is)
    (hi : (blockAt labels (visits labels (some entry) is) a).head? = some i) :
    i.address = a := by
  obtain ⟨v, hv, rfl, rfl⟩ := mem_blockAt.1 (List.mem_of_mem_head? hi)
  obtain ⟨k, hk⟩ := List.getElem?_of_mem hv
  obtain ⟨m, u, hm, hu, haddress, hrun⟩ := h.exists_opening hk
  have hopens : u.home labels = u.instruction.address := by
    rw [haddress, hrun m u (Nat.le_refl m) hm hu]
  have hhead := h.head?_blockAt hu hopens
  rw [haddress, hi] at hhead
  rw [Option.some_inj.1 hhead, haddress]

end Orderly

end Blocks

/-- The links that leave the instruction with a number: those of a branch, or the one to the
target of a branch that comes next. -/
def exitLinks (labels : List Address) (vs : List Visit) (k : Nat) (u : Visit) : List Link :=
  if u.instruction.has .branch then branchLinks (u.home labels) u.instruction
  else
    match vs[k + 1]? with
    | some v =>
      if v.instruction.address ∈ labels then [⟨u.home labels, v.instruction.address, 0⟩] else []
    | none => []

section Links

variable {entry a : Address} {labels : List Address} {is : List Instruction}
  {u v w : Visit} {l : Link} {k n : Nat}

theorem source_of_mem_branchLinks {home : Address} {i : Instruction}
    (hl : l ∈ branchLinks home i) : l.source = home := by
  unfold branchLinks at hl
  split at hl
  · split at hl
    · split at hl <;> simp only [List.mem_cons, List.not_mem_nil, or_false] at hl
      · rw [hl]
      · rcases hl with rfl | rfl <;> rfl
    · cases hl
  · cases hl

theorem source_of_mem_exitLinks {vs : List Visit} (hl : l ∈ exitLinks labels vs k u) :
    l.source = u.home labels := by
  unfold exitLinks at hl
  split at hl
  · exact source_of_mem_branchLinks hl
  · split at hl
    · split at hl
      · rw [List.mem_singleton.1 hl]
      · cases hl
    · cases hl

/-- Lists that are empty but for one position are joined to the list there. -/
theorem flatMap_eq_of_position {α β : Type} {f : α → List β} {xs : List β} {l : List α} {p : Nat}
    (h : ∀ (n : Nat) x, l[n]? = some x → f x = if n = p then xs else []) :
    l.flatMap f = if p < l.length then xs else [] := by
  induction l generalizing p with
  | nil => simp
  | cons x rest ih =>
    rw [List.flatMap_cons, h 0 x rfl]
    cases p with
    | zero =>
      have hrest : rest.flatMap f = [] := by
        rw [List.flatMap_eq_nil_iff]
        intro y hy
        obtain ⟨n, hn⟩ := List.getElem?_of_mem hy
        exact h (n + 1) y hn
      simp [hrest]
    | succ p =>
      have hrest := ih (p := p) fun n y hn => by simpa using h (n + 1) y hn
      simp [hrest]

namespace Orderly

theorem entering_zero (h : Orderly entry is)
    (hv : (visits labels (some entry) is)[0]? = some v) : v.entering labels = [] := by
  have hfirst := h.first _ (getElem?_visits hv)
  simp [Visit.entering, above_zero hv, hfirst]

/-- The link to a target of a branch comes from the instruction before, unless it is a branch. -/
theorem entering_succ (h : Orderly entry is)
    (hu : (visits labels (some entry) is)[k]? = some u)
    (hv : (visits labels (some entry) is)[k + 1]? = some v) :
    v.entering labels =
      if u.instruction.has .branch then []
      else exitLinks labels (visits labels (some entry) is) k u := by
  unfold Visit.entering exitLinks
  rw [above_succ hu hv, hv]
  cases hbranch : u.instruction.has .branch with
  | true =>
    rcases h.next k _ _ (getElem?_visits hu) (getElem?_visits hv) with ⟨-, hun⟩ | hnext
    · simp [blockBehind, hbranch, hun]
    · cases hun : u.instruction.has .unconditional <;> simp [blockBehind, hbranch, hun, hnext]
  | false =>
    by_cases hlabel : v.instruction.address ∈ labels
    · have hopens := home_of_label hlabel
      have hne := h.home_ne_of_opens hu hv (Nat.lt_succ_self k) hopens
      rw [hopens] at hne
      simp [blockBehind, hbranch, hlabel, Ne.symm hne]
    · simp [hlabel]

theorem endsBlock_of_exitLinks (h : Orderly entry is)
    (hu : (visits labels (some entry) is)[k]? = some u)
    (hl : l ∈ exitLinks labels (visits labels (some entry) is) k u) :
    EndsBlock labels (visits labels (some entry) is) k u := by
  intro v hv
  apply h.home_ne_of_opens hu hv (Nat.lt_succ_self k)
  cases hbranch : u.instruction.has .branch with
  | true => exact h.opens_of_branch hu hv hbranch
  | false =>
    apply home_of_label
    by_contra hno
    simp [exitLinks, hbranch, hv, hno] at hl

theorem exists_of_mem_links (h : Orderly entry is)
    (hl : l ∈ (visits labels (some entry) is).flatMap (·.links labels)) :
    ∃ k u, (visits labels (some entry) is)[k]? = some u ∧
      l ∈ exitLinks labels (visits labels (some entry) is) k u := by
  obtain ⟨v, hv, hl⟩ := List.mem_flatMap.1 hl
  obtain ⟨k, hk⟩ := List.getElem?_of_mem hv
  rcases List.mem_append.1 hl with hl | hl
  · cases k with
    | zero => rw [h.entering_zero hk] at hl; cases hl
    | succ k =>
      obtain ⟨u, hu⟩ := exists_visit_before hk
      rw [h.entering_succ hu hk] at hl
      split at hl
      · cases hl
      · exact ⟨k, u, hu, hl⟩
  · refine ⟨k, v, hk, ?_⟩
    cases hbranch : v.instruction.has .branch with
    | true => simpa [exitLinks, hbranch] using hl
    | false => rw [branchLinks_of_not_branch hbranch] at hl; cases hl

theorem mem_links (h : Orderly entry is)
    (hu : (visits labels (some entry) is)[k]? = some u)
    (hl : l ∈ exitLinks labels (visits labels (some entry) is) k u) :
    l ∈ (visits labels (some entry) is).flatMap (·.links labels) := by
  rw [List.mem_flatMap]
  cases hbranch : u.instruction.has .branch with
  | true =>
    refine ⟨u, List.mem_of_getElem? hu, List.mem_append_right _ ?_⟩
    simpa [exitLinks, hbranch] using hl
  | false =>
    cases hv : (visits labels (some entry) is)[k + 1]? with
    | none => simp [exitLinks, hbranch, hv] at hl
    | some v =>
      refine ⟨v, List.mem_of_getElem? hv, List.mem_append_left _ ?_⟩
      rw [h.entering_succ hu hv, hbranch]
      exact hl

theorem filter_exitLinks (h : Orderly entry is)
    (hu : (visits labels (some entry) is)[k]? = some u)
    (hends : EndsBlock labels (visits labels (some entry) is) k u)
    (hw : (visits labels (some entry) is)[n]? = some w) :
    (exitLinks labels (visits labels (some entry) is) n w).filter (·.source = u.home labels) =
      if n = k then exitLinks labels (visits labels (some entry) is) k u else [] := by
  split
  · next heq =>
    subst heq
    rw [hu] at hw
    cases hw
    rw [List.filter_eq_self]
    intro l hl
    exact decide_eq_true (source_of_mem_exitLinks hl)
  · next hne =>
    rw [List.filter_eq_nil_iff]
    intro l hl hsource
    have hhome := (source_of_mem_exitLinks hl).symm.trans (of_decide_eq_true hsource)
    -- a block has one end
    have hle := h.index_le_of_endsBlock hu hends hw hhome
    have hge := h.index_le_of_endsBlock hw (h.endsBlock_of_exitLinks hw hl) hu hhome.symm
    omega

/-- A branch makes the links that leave a block if it ends the block. -/
theorem filter_branchLinks (h : Orderly entry is)
    (hu : (visits labels (some entry) is)[k]? = some u)
    (hends : EndsBlock labels (visits labels (some entry) is) k u)
    (hw : (visits labels (some entry) is)[n]? = some w) :
    (branchLinks (w.home labels) w.instruction).filter (·.source = u.home labels) =
      if n = k ∧ u.instruction.has .branch = true then
        exitLinks labels (visits labels (some entry) is) k u else [] := by
  have hbranch : branchLinks (w.home labels) w.instruction = if w.instruction.has .branch then
      exitLinks labels (visits labels (some entry) is) n w else [] := by
    cases hyes : w.instruction.has .branch <;> simp [exitLinks, branchLinks, hyes]
  rw [hbranch, apply_ite (List.filter _), List.filter_nil, h.filter_exitLinks hu hends hw]
  by_cases heq : n = k
  · subst heq
    rw [hu] at hw
    cases hw
    simp
  · simp [heq]

/-- A target of a branch makes the link that leaves a block if it comes behind the block. -/
theorem filter_entering (h : Orderly entry is)
    (hu : (visits labels (some entry) is)[k]? = some u)
    (hends : EndsBlock labels (visits labels (some entry) is) k u)
    (hw : (visits labels (some entry) is)[n]? = some w) :
    (w.entering labels).filter (·.source = u.home labels) =
      if n = k + 1 ∧ u.instruction.has .branch = false then
        exitLinks labels (visits labels (some entry) is) k u else [] := by
  cases n with
  | zero => simp [h.entering_zero hw]
  | succ m =>
    obtain ⟨x, hx⟩ := exists_visit_before hw
    rw [h.entering_succ hx hw, apply_ite (List.filter _), List.filter_nil,
      h.filter_exitLinks hu hends hx]
    by_cases heq : m = k
    · subst heq
      rw [hu] at hx
      cases hx
      cases u.instruction.has .branch <;> simp
    · simp [heq]

/-- The walk makes the links that leave a block at the last instruction of it if this is a
branch, and otherwise at the next instruction. -/
theorem filter_links_visit (h : Orderly entry is)
    (hu : (visits labels (some entry) is)[k]? = some u)
    (hends : EndsBlock labels (visits labels (some entry) is) k u)
    (hw : (visits labels (some entry) is)[n]? = some w) :
    (w.links labels).filter (·.source = u.home labels) =
      if n = (if u.instruction.has .branch then k else k + 1) then
        exitLinks labels (visits labels (some entry) is) k u
      else [] := by
  rw [Visit.links, List.filter_append, h.filter_entering hu hends hw,
    h.filter_branchLinks hu hends hw]
  cases u.instruction.has .branch <;> simp

theorem filter_links (h : Orderly entry is)
    (hu : (visits labels (some entry) is)[k]? = some u)
    (hends : EndsBlock labels (visits labels (some entry) is) k u) :
    ((visits labels (some entry) is).flatMap (·.links labels)).filter
        (·.source = u.home labels) =
      exitLinks labels (visits labels (some entry) is) k u := by
  rw [List.filter_flatMap, flatMap_eq_of_position fun n w hw => h.filter_links_visit hu hends hw]
  cases hbranch : u.instruction.has .branch with
  | true => exact if_pos (List.getElem?_eq_some_iff.1 hu).1
  | false =>
    rw [if_neg Bool.false_ne_true]
    split
    · rfl
    · next hend =>
      have hnone : (visits labels (some entry) is)[k + 1]? = none :=
        List.getElem?_eq_none (by omega)
      simp [exitLinks, hbranch, hnone]

end Orderly

end Links

section Graphs

variable {r : Routine} {g : BlockGraph} {a : Address} {last : Instruction}

theorem instructionsAt_of_depicts (hg : Depicts g (sketchOf r)) :
    g.instructionsAt (Block.idOf a) =
      blockAt (targets r.instructions.toList) (visitsOf r) a := by
  rw [hg.instructionsAt_eq]
  simp [sketchOf, Sketch.addAll, blockAt, List.filter_map, Function.comp_def]

theorem edges_of_depicts (hg : Depicts g (sketchOf r)) :
    g.edges.toList =
      ((visitsOf r).flatMap (·.links (targets r.instructions.toList))).map Link.edge := by
  rw [hg.edges_eq]
  simp [sketchOf, Sketch.addAll]

theorem filter_edge_source (links : List Link) :
    (links.map Link.edge).filter (·.source == Block.idOf a) =
      (links.filter (·.source = a)).map Link.edge := by
  rw [List.filter_map]
  congr 2
  funext l
  exact Bool.eq_iff_iff.2 (by simp [Link.edge, Block.idOf_inj])

theorem exists_endsBlock {labels : List Address} {vs : List Visit} {v : Visit} {k : Nat}
    (hv : vs[k]? = some v) :
    ∃ n w, vs[n]? = some w ∧ w.home labels = v.home labels ∧ EndsBlock labels vs n w := by
  induction hrest : vs.length - k generalizing k v with
  | zero =>
    have := (List.getElem?_eq_some_iff.1 hv).1
    omega
  | succ m ih =>
    by_cases hnext : ∃ x, vs[k + 1]? = some x ∧ x.home labels = v.home labels
    · obtain ⟨x, hx, hsame⟩ := hnext
      obtain ⟨n, w, hw, hhome, hends⟩ := ih hx (by omega)
      exact ⟨n, w, hw, hhome.trans hsame, hends⟩
    · exact ⟨k, v, hv, rfl, fun x hx heq => hnext ⟨x, hx, heq⟩⟩

theorem exists_of_getLast? (h : Orderly r.address r.instructions.toList)
    (hlast : (blockAt (targets r.instructions.toList) (visitsOf r) a).getLast? = some last) :
    ∃ (k : Nat) (u : Visit), (visitsOf r)[k]? = some u ∧
      u.home (targets r.instructions.toList) = a ∧ u.instruction = last ∧
      EndsBlock (targets r.instructions.toList) (visitsOf r) k u := by
  obtain ⟨v, hv, rfl, -⟩ := mem_blockAt.1 (List.mem_of_getLast? hlast)
  obtain ⟨m, hm⟩ := List.getElem?_of_mem hv
  obtain ⟨k, u, hu, hhome, hends⟩ := exists_endsBlock hm
  have hend := h.getLast?_blockAt hu hends
  refine ⟨k, u, hu, hhome, ?_, hends⟩
  rw [hhome] at hend
  exact Option.some_inj.1 (hend.symm.trans hlast)

end Graphs

end CartFlow.BlockGraph
