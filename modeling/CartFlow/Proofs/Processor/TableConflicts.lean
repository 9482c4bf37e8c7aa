import CartFlow.Proofs.Processor.OpcodeTable
import Mathlib.Data.List.Nodup
import Mathlib.Data.List.Perm.Basic

/-!
# When groups of opcodes make a table

A table is built from groups in reading order, and of each group the mnemonic is entered before
the bytes. A mnemonic or a byte may not be entered again. So there is a table exactly if nothing
would be entered twice, and otherwise the failure names what was entered again first. What the
table holds is said by its groups as a set, whatever their order.
-/
namespace CartFlow.Processor

inductive Key
  | mnemonic (name : String)
  | byte (value : UInt8)
  deriving DecidableEq

def Key.conflict : Key → Cause
  | mnemonic name => .duplicateMnemonic name
  | byte value => .duplicateOpcode value

/-- The keys of a group in the order in which they are entered. -/
def Group.keys (g : Group) : List Key :=
  .mnemonic g.mnemonic :: g.opcodes.map fun d => .byte d.value

/-- The cause is that of the first key that was entered before. -/
def FirstConflict (keys : List Key) (cause : Cause) : Prop :=
  ∃ before key after, keys = before ++ key :: after ∧ before.Nodup ∧ key ∈ before ∧
    cause = key.conflict

namespace FirstConflict

variable {keys : List Key} {key : Key} {cause : Cause}

theorem append (h : FirstConflict keys cause) (more : List Key) :
    FirstConflict (keys ++ more) cause := by
  obtain ⟨before, key, after, rfl, hnodup, hmem, rfl⟩ := h
  exact ⟨before, key, after ++ more, by simp, hnodup, hmem, rfl⟩

theorem of_mem (hnodup : keys.Nodup) (hmem : key ∈ keys) :
    FirstConflict (keys ++ [key]) key.conflict :=
  ⟨keys, key, [], rfl, hnodup, hmem, rfl⟩

theorem not_nodup (h : FirstConflict keys cause) : ¬ keys.Nodup := by
  obtain ⟨before, key, after, rfl, -, hmem, -⟩ := h
  intro hnodup
  exact (List.nodup_append.1 hnodup).2.2 key hmem key List.mem_cons_self rfl

end FirstConflict

theorem nodup_concat_of_not_mem {keys : List Key} {key : Key} (hnodup : keys.Nodup)
    (hmem : key ∉ keys) : (keys ++ [key]).Nodup := by
  rw [← List.concat_eq_append]
  exact hnodup.concat hmem

namespace Table

variable {t u : Table} {op : Opcode} {g : Group} {groups others : List Group} {keys : List Key}
  {seen : List String}

/-- The keys that were entered so far, with the mnemonics among them. -/
structure Holds (t : Table) (seen : List String) (keys : List Key) : Prop where
  byte_mem : ∀ value, .byte value ∈ keys ↔ (t.find? value).isSome
  mnemonic_mem : ∀ name, .mnemonic name ∈ keys ↔ name ∈ seen

/-- The outcome of entering all of the keys: none of them occurs twice, or the first that does is
reported. -/
def Enters (keys : List Key) (good : Table → Prop) : Except Failure Table → Prop
  | .ok t => keys.Nodup ∧ good t
  | .error e => ∃ cause, e = { cause } ∧ FirstConflict keys cause

theorem Enters.bind {good better : Table → Prop} {first : Except Failure Table}
    {next : Table → Except Failure Table} {more : List Key} (h : Enters keys good first)
    (hnext : ∀ t, keys.Nodup → good t → Enters (keys ++ more) better (next t)) :
    Enters (keys ++ more) better (first >>= next) := by
  cases first with
  | ok t => exact hnext t h.1 h.2
  | error e =>
    obtain ⟨cause, rfl, hconflict⟩ := h
    exact ⟨cause, rfl, hconflict.append more⟩

theorem Holds.insert (h : t.Holds seen keys) (hnodup : keys.Nodup) (op : Opcode) :
    Enters (keys ++ [.byte op.value]) (·.Holds seen (keys ++ [.byte op.value])) (t.insert op) := by
  have hbyte := h.byte_mem op.value
  cases hinsert : t.insert op with
  | ok u =>
    obtain ⟨hfree, hslots⟩ := insert_eq_ok hinsert
    rw [hfree] at hbyte
    refine ⟨nodup_concat_of_not_mem hnodup (by simp [hbyte]), ?_, ?_⟩
    · intro value
      rw [hslots, List.mem_append, h.byte_mem, List.mem_singleton, Key.byte.injEq]
      split
      · next heq => simp [heq]
      · next hne => simp [hne]
    · intro name
      rw [List.mem_append, h.mnemonic_mem]
      simp
  | error e =>
    unfold Table.insert at hinsert
    split at hinsert
    · next htaken =>
      cases hinsert
      exact ⟨_, rfl, .of_mem hnodup (hbyte.2 htaken)⟩
    · cases hinsert

theorem Holds.insertGroup (h : t.Holds seen keys) (hnodup : keys.Nodup) (g : Group) :
    Enters (keys ++ g.opcodes.map fun d => .byte d.value)
      (·.Holds seen (keys ++ g.opcodes.map fun d => .byte d.value)) (t.insertGroup g) := by
  unfold Table.insertGroup
  generalize g.opcodes = described
  induction described generalizing t keys with
  | nil =>
    rw [List.map_nil, List.append_nil]
    exact ⟨hnodup, h⟩
  | cons d rest ih =>
    rw [List.map_cons, List.append_cons, List.foldlM_cons]
    apply (h.insert hnodup (g.opcode d)).bind
    intro u hnodup hu
    exact ih hu hnodup

theorem Holds.enterMnemonic (h : t.Holds seen keys) (name : String) :
    t.Holds (name :: seen) (keys ++ [.mnemonic name]) := by
  refine ⟨?_, ?_⟩
  · intro value
    rw [List.mem_append, h.byte_mem]
    simp
  · intro other
    rw [List.mem_append, h.mnemonic_mem, List.mem_singleton, Key.mnemonic.injEq, List.mem_cons,
      or_comm]

theorem Holds.insertGroups (h : t.Holds seen keys) (hnodup : keys.Nodup) (groups : List Group) :
    Enters (keys ++ groups.flatMap Group.keys) (fun _ => True) (t.insertGroups seen groups) := by
  induction groups generalizing t seen keys with
  | nil =>
    rw [List.flatMap_nil, List.append_nil]
    exact ⟨hnodup, trivial⟩
  | cons g rest ih =>
    have hname := h.mnemonic_mem g.mnemonic
    have hkeys : keys ++ (g :: rest).flatMap Group.keys =
        keys ++ [.mnemonic g.mnemonic] ++ g.opcodes.map (fun d => .byte d.value) ++
          rest.flatMap Group.keys := by
      simp [Group.keys]
    rw [hkeys, Table.insertGroups]
    split
    · next hseen =>
      rw [List.contains_iff_mem] at hseen
      have hconflict := FirstConflict.of_mem hnodup (hname.2 hseen)
      exact ⟨_, rfl, (hconflict.append _).append _⟩
    · next hnew =>
      rw [List.contains_iff_mem, ← hname] at hnew
      have hnodup := nodup_concat_of_not_mem hnodup hnew
      apply ((h.enterMnemonic g.mnemonic).insertGroup hnodup g).bind
      intro u hnodup hu
      exact ih hu hnodup

theorem enters_ofGroups (groups : List Group) :
    Enters (groups.flatMap Group.keys) (fun _ => True) (ofGroups groups) := by
  have hempty : empty.Holds [] [] := by
    refine ⟨?_, by simp⟩
    intro value
    rw [find?_eq_getElem _ value.toNat_lt, empty, Vector.getElem_replicate]
    simp
  exact hempty.insertGroups .nil groups

theorem perm_keys (groups : List Group) :
    (groups.flatMap Group.keys).Perm ((groups.map (·.mnemonic)).map Key.mnemonic ++
      (groups.flatMap fun g => g.opcodes.map (·.value)).map Key.byte) := by
  have happend := List.flatMap_append_perm groups (fun g => [Key.mnemonic g.mnemonic])
    (fun g => g.opcodes.map fun d => Key.byte d.value)
  rw [← List.map_eq_flatMap] at happend
  unfold Group.keys
  simpa [List.map_flatMap, Function.comp_def] using happend.symm

theorem nodup_keys_iff :
    (groups.flatMap Group.keys).Nodup ↔
      (groups.map (·.mnemonic)).Nodup ∧
        (groups.flatMap fun g => g.opcodes.map (·.value)).Nodup := by
  have hmnemonic : Function.Injective Key.mnemonic := fun _ _ h => Key.mnemonic.inj h
  have hbyte : Function.Injective Key.byte := fun _ _ h => Key.byte.inj h
  rw [(perm_keys groups).nodup_iff, List.nodup_append, List.nodup_map_iff hmnemonic,
    List.nodup_map_iff hbyte]
  refine and_congr_right fun _ => and_iff_left ?_
  intro key hname other hvalue
  obtain ⟨name, -, rfl⟩ := List.mem_map.1 hname
  obtain ⟨value, -, rfl⟩ := List.mem_map.1 hvalue
  simp

theorem exists_ofGroups_iff :
    (∃ t, ofGroups groups = .ok t) ↔ (groups.flatMap Group.keys).Nodup := by
  have henters := enters_ofGroups groups
  cases hbuilt : ofGroups groups with
  | ok t =>
    rw [hbuilt] at henters
    exact ⟨fun _ => henters.1, fun _ => ⟨t, rfl⟩⟩
  | error e =>
    rw [hbuilt] at henters
    obtain ⟨cause, -, hconflict⟩ := henters
    refine ⟨?_, fun hnodup => absurd hnodup hconflict.not_nodup⟩
    rintro ⟨t, ht⟩
    cases ht

theorem count_insert (h : t.insert op = .ok u) : u.count = t.count + 1 := by
  unfold insert at h
  split at h
  · cases h
  · cases h
    rfl

theorem count_insertGroup (h : t.insertGroup g = .ok u) :
    u.count = t.count + g.opcodes.length := by
  unfold insertGroup at h
  generalize g.opcodes = described at h
  induction described generalizing t with
  | nil => cases h; rfl
  | cons d rest ih =>
    rw [List.foldlM_cons] at h
    obtain ⟨s, hinsert, h⟩ := bind_eq_ok.1 h
    rw [ih h, count_insert hinsert, List.length_cons]
    omega

theorem count_insertGroups (h : t.insertGroups seen groups = .ok u) :
    u.count = t.count + (groups.flatMap (·.opcodes)).length := by
  induction groups generalizing t seen with
  | nil => cases h; rfl
  | cons g rest ih =>
    unfold insertGroups at h
    split at h
    · cases h
    · obtain ⟨s, hgroup, h⟩ := bind_eq_ok.1 h
      rw [ih h, count_insertGroup hgroup, List.flatMap_cons, List.length_append]
      omega

theorem eq_of_find? (hfind : ∀ value, t.find? value = u.find? value) (hcount : t.count = u.count) :
    t = u := by
  obtain ⟨slots, count⟩ := t
  obtain ⟨slots', count'⟩ := u
  obtain rfl : slots = slots' := by
    ext1 k hk
    have hslot := hfind (UInt8.ofNat k)
    simpa [find?, Vector.get, Nat.mod_eq_of_lt hk] using hslot
  obtain rfl : count = count' := hcount
  rfl

theorem lookup_eq_ok {found : Opcode} {value : UInt8} :
    t.lookup value = .ok found ↔ t.find? value = some found := by
  unfold lookup
  cases t.find? value with
  | none => simp [fail]
  | some op => simp

/-- The table has what the groups describe: as many opcodes as there are descriptions, and under
the byte of a description the opcode that takes its mnemonic and further properties from the
group. All other bytes are unknown. -/
structure Describes (t : Table) (groups : List Group) : Prop where
  count_eq : t.count = (groups.flatMap (·.opcodes)).length
  lookup_iff : ∀ value op, t.lookup value = .ok op ↔ ∃ g ∈ groups, ∃ d ∈ g.opcodes,
    d.value = value ∧ op = ⟨value, g.mnemonic, d.mode, g.attributes ∪ d.attributes⟩
  unknown : ∀ value, (∀ g ∈ groups, ∀ d ∈ g.opcodes, d.value ≠ value) →
    t.lookup value = fail (.unknownOpcode value)

theorem describes_of_ofGroups (h : ofGroups groups = .ok t) : t.Describes groups := by
  refine ⟨?_, ?_, ?_⟩
  · have hcount := count_insertGroups h
    rwa [empty, Nat.zero_add] at hcount
  · intro value op
    rw [lookup_eq_ok, find?_ofGroups h]
    constructor
    · rintro ⟨g, hg, d, hd, rfl, rfl⟩
      exact ⟨g, hg, d, hd, rfl, rfl⟩
    · rintro ⟨g, hg, d, hd, rfl, rfl⟩
      exact ⟨g, hg, d, hd, rfl, rfl⟩
  · intro value hvalue
    have hnone : t.find? value = none := by
      rw [Option.eq_none_iff_forall_ne_some]
      intro op hop
      obtain ⟨g, hg, d, hd, heq, -⟩ := (find?_ofGroups h).1 hop
      exact hvalue g hg d hd heq
    rw [lookup, hnone]

theorem ofGroups_perm (h : ofGroups groups = .ok t) (hperm : groups.Perm others) :
    ofGroups others = .ok t := by
  have hnodup := exists_ofGroups_iff.1 ⟨t, h⟩
  rw [(hperm.flatMap_right Group.keys).nodup_iff] at hnodup
  obtain ⟨u, hu⟩ := exists_ofGroups_iff.2 hnodup
  have hfind : ∀ value, u.find? value = t.find? value := by
    intro value
    apply Option.ext
    intro op
    rw [find?_ofGroups hu, find?_ofGroups h]
    simp only [hperm.mem_iff]
  have hcount : u.count = t.count := by
    rw [(describes_of_ofGroups hu).count_eq, (describes_of_ofGroups h).count_eq]
    exact (hperm.flatMap_right _).length_eq.symm
  rw [hu, eq_of_find? hfind hcount]

/-- Groups make a table exactly if no mnemonic and no byte occurs twice. The table has what they
describe and does not depend on their order. Without one, the failure is that of the first mnemonic
or byte in reading order that occurred before. -/
theorem ofGroups_decides_conflicts (groups : List Group) :
    ((∃ t, ofGroups groups = .ok t) ↔
      (groups.map (·.mnemonic)).Nodup ∧
        (groups.flatMap fun g => g.opcodes.map (·.value)).Nodup) ∧
      (∀ t, ofGroups groups = .ok t →
        t.Describes groups ∧ ∀ others, groups.Perm others → ofGroups others = .ok t) ∧
      ∀ e, ofGroups groups = .error e →
        ∃ cause, e = { cause } ∧ FirstConflict (groups.flatMap Group.keys) cause := by
  refine ⟨exists_ofGroups_iff.trans nodup_keys_iff, ?_, ?_⟩
  · intro t ht
    exact ⟨describes_of_ofGroups ht, fun others hperm => ofGroups_perm ht hperm⟩
  · intro e he
    have henters := enters_ofGroups groups
    rwa [he] at henters

/-- A byte occurs twice, and behind it a mnemonic and another byte do. -/
def clashing : List Group :=
  [⟨"JSR", .call, [⟨0x20, .absolute, .empty⟩]⟩,
    ⟨"JSL", .call, [⟨0x22, .absoluteLong, .empty⟩, ⟨0x20, .absoluteLong, .empty⟩]⟩,
    ⟨"JSR", .call, [⟨0x22, .absolute, .empty⟩]⟩]

/-- The catalogue makes the standard table in any order. Of the conflicts between the clashing
groups only the first is reported. -/
theorem ofGroups_decides_conflicts_catalogue :
    standard.Describes Catalogue.groups ∧ ofGroups Catalogue.groups.reverse = .ok standard ∧
      ofGroups clashing = fail (.duplicateOpcode 0x20) ∧
      FirstConflict (clashing.flatMap Group.keys) (.duplicateOpcode 0x20) := by
  obtain ⟨-, hbuilt, -⟩ := ofGroups_decides_conflicts Catalogue.groups
  obtain ⟨hdescribes, horder⟩ := hbuilt standard ofGroups_catalogue
  obtain ⟨-, -, hfailed⟩ := ofGroups_decides_conflicts clashing
  have hclash : ofGroups clashing = fail (.duplicateOpcode 0x20) := by decide +kernel
  obtain ⟨cause, hcause, hconflict⟩ := hfailed _ hclash
  cases hcause
  exact ⟨hdescribes, horder _ Catalogue.groups.reverse_perm.symm, hclash, hconflict⟩

end Table

end CartFlow.Processor
