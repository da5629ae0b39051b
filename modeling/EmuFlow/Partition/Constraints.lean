import EmuFlow.EmuIR
import EmuFlow.Lib.SortedSet

/-!
# Partition constraints

The groups and the fixed instances of `normalize_partition_constraints` in `emuflow/partition.py`;
the balance and the choice of FPGAs are left out. `fnmatch.fnmatchcase` is a parameter.
-/

namespace EmuFlow.Partition

open Check SortedSet List

/-! ## the constraints -/

structure RawGroup where
  id : String
  instances : List String := []
  patterns : List String := []

structure RawFixed where
  fpga : String
  inst : Option String := none
  instances : List String := []
  patterns : List String := []

structure RawConstraints where
  groups : List RawGroup := []
  fixed : List RawFixed := []

structure Group where
  id : String
  instances : List String

structure Fixed where
  inst : String
  fpga : String

structure PartitionConstraints where
  groups : List Group
  fixed : List Fixed

/-- The constraints as an artifact has them: normalized, and read again by the validator. -/
def PartitionConstraints.sealed (constraints : PartitionConstraints) : RawConstraints where
  groups := constraints.groups.map fun group => { id := group.id, instances := group.instances }
  fixed := constraints.fixed.map fun item => { fpga := item.fpga, inst := some item.inst }

/-! ## normalization -/

section normalize

variable (fnmatchcase : String → String → Bool) (instanceIds fpgaIds : List String)

def expandInstancePatterns (context : String) (patterns : List String) : Result (List String) := do
  let found ← patterns.zipIdx.mapM fun pattern => do
    raiseIf (pattern.1 = "")
      (.validation "%s[%s]: expected a non-empty string" [context, toString pattern.2])
    let patternMatches := instanceIds.filter fun id => fnmatchcase id pattern.1
    raiseIf (patternMatches = [])
      (.validation "%s[%s]: pattern %r matched no instances"
        [context, toString pattern.2, pattern.1])
    return patternMatches
  return sortedSet found.flatten

def expandInstances (context : String) (instances patterns : List String) :
    Result (List String) := do
  let unknown := sortedSet (instances.filter fun id => id ∉ instanceIds)
  raiseIf (unknown ≠ []) (.validation "%s.instances: unknown instances %s" (context :: unknown))
  let expanded ← expandInstancePatterns fnmatchcase instanceIds (context ++ ".patterns") patterns
  raiseIf (instances ++ expanded = [])
    (.validation "%s: expected at least one instance" [context])
  return sortedSet (instances ++ expanded)

def normalizeGroup (groups : List Group) (item : RawGroup) : Result (List Group) := do
  let context := "constraints.groups[" ++ toString groups.length ++ "]"
  raiseIf (item.id = "") (.validation "%s.id: expected a non-empty string" [context])
  raiseIf (item.id ∈ groups.map Group.id) (.validation "%s.id: duplicate %r" [context, item.id])
  let instances ← expandInstances fnmatchcase instanceIds context item.instances item.patterns
  return groups ++ [{ id := item.id, instances := instances }]

/-- `fixed_by_instance[id] = fpga`, unless the instance is fixed to another FPGA. -/
def fixInstance (fpga : String) (fixed : List Fixed) (id : String) : Result (List Fixed) := do
  fixed.forM fun previous =>
    raiseIf (previous.inst = id ∧ previous.fpga ≠ fpga)
      (.validation "constraints.fixed: instance %r is fixed to both %r and %r"
        [id, previous.fpga, fpga])
  return fixed ++ [{ inst := id, fpga := fpga }]

def normalizeFixed (fixed : List Fixed) (item : ℕ × RawFixed) : Result (List Fixed) := do
  let context := "constraints.fixed[" ++ toString item.1 ++ "]"
  raiseIf (item.2.fpga ∉ fpgaIds) (.validation "%s.fpga: unknown FPGA %r" [context, item.2.fpga])
  let instances ← expandInstances fnmatchcase instanceIds context
    (item.2.instances ++ item.2.inst.toList) item.2.patterns
  instances.foldlM (fixInstance item.2.fpga) fixed

/-- `normalize_partition_constraints`, its groups and fixed instances. -/
def normalizeConstraints (raw : RawConstraints) : Result PartitionConstraints := do
  let groups ← raw.groups.foldlM (normalizeGroup fnmatchcase instanceIds) []
  let fixed ← (raw.fixed.zipIdx.map Prod.swap).foldlM
    (normalizeFixed fnmatchcase instanceIds fpgaIds) []
  return { groups := groups, fixed := fixed }

end normalize

/-- The groups have names of their own and instances, in order, and every instance is of the
design; no instance is fixed to two FPGAs. -/
structure Normal (instanceIds fpgaIds : List String) (constraints : PartitionConstraints) :
    Prop where
  group_ids : (constraints.groups.map Group.id).Nodup
  group_id_ne : ∀ group ∈ constraints.groups, group.id ≠ ""
  group_ne : ∀ group ∈ constraints.groups, group.instances ≠ []
  group_sorted : ∀ group ∈ constraints.groups, sortedSet group.instances = group.instances
  group_known : ∀ group ∈ constraints.groups, ∀ id ∈ group.instances, id ∈ instanceIds
  fixed_known : ∀ item ∈ constraints.fixed, item.inst ∈ instanceIds ∧ item.fpga ∈ fpgaIds
  fixed_unique : ∀ item ∈ constraints.fixed, ∀ item' ∈ constraints.fixed,
    item.inst = item'.inst → item.fpga = item'.fpga

variable {fnmatchcase : String → String → Bool} {instanceIds fpgaIds : List String}

variable {context : String}

theorem mem_expandInstancePatterns {patterns found : List String}
    (h : expandInstancePatterns fnmatchcase instanceIds context patterns = .ok found) {id : String}
    (hid : id ∈ found) : id ∈ instanceIds := by
  obtain ⟨lists, hl, h⟩ := bind_eq_ok.mp h
  rw [← Except.ok.inj h, mem_sortedSet, mem_flatten] at hid
  obtain ⟨list, hls, hid⟩ := hid
  obtain ⟨pattern, -, hp⟩ := exists_of_mem_mapM hl hls
  simp only [raiseIf_bind] at hp
  obtain ⟨-, -, hp⟩ := hp
  rw [← Except.ok.inj hp] at hid
  exact mem_of_mem_filter hid

theorem expandInstances_spec {instances patterns found : List String}
    (h : expandInstances fnmatchcase instanceIds context instances patterns = .ok found) :
    found ≠ [] ∧ sortedSet found = found ∧ ∀ id ∈ found, id ∈ instanceIds := by
  obtain ⟨hu, h⟩ := raiseIf_bind.mp h
  obtain ⟨expanded, he, h⟩ := bind_eq_ok.mp h
  obtain ⟨hne, h⟩ := raiseIf_bind.mp h
  rw [← Except.ok.inj h]
  refine ⟨?_, sortedSet_idem _, fun id hid => ?_⟩
  · obtain ⟨id, hid⟩ := exists_mem_of_ne_nil _ hne
    exact ne_nil_of_mem (mem_sortedSet.mpr hid)
  · rcases List.mem_append.mp (mem_sortedSet.mp hid) with hid | hid
    · by_contra hn
      have hm : id ∈ sortedSet (instances.filter fun id => id ∉ instanceIds) := by
        simp [hid, hn]
      rw [not_ne_iff.mp hu] at hm
      exact absurd hm not_mem_nil
    · exact mem_expandInstancePatterns he hid

theorem expandInstances_self {instances : List String} (hne : instances ≠ [])
    (hs : sortedSet instances = instances) (hk : ∀ id ∈ instances, id ∈ instanceIds) :
    expandInstances fnmatchcase instanceIds context instances [] = .ok instances := by
  have hu : (instances.filter fun id => id ∉ instanceIds) = [] := by
    rw [filter_eq_nil_iff]
    intro id hid
    simp [hk id hid]
  have hp : expandInstancePatterns fnmatchcase instanceIds (context ++ ".patterns") [] =
      .ok [] := rfl
  rw [expandInstances, raiseIf_bind]
  refine ⟨?_, ?_⟩
  · rw [hu]
    exact not_ne_iff.mpr rfl
  · rw [hp]
    refine raiseIf_bind.mpr ⟨?_, ?_⟩
    · rw [append_nil]
      exact hne
    · rw [append_nil, hs]
      rfl

/-! ### what is accepted -/

theorem normalizeGroup_eq_ok {groups groups' : List Group} {item : RawGroup}
    (h : normalizeGroup fnmatchcase instanceIds groups item = .ok groups') :
    item.id ≠ "" ∧ item.id ∉ groups.map Group.id ∧ ∃ instances,
      (instances ≠ [] ∧ sortedSet instances = instances ∧ ∀ id ∈ instances, id ∈ instanceIds) ∧
        groups' = groups ++ [{ id := item.id, instances := instances }] := by
  obtain ⟨hid, h⟩ := raiseIf_bind.mp h
  obtain ⟨hn, h⟩ := raiseIf_bind.mp h
  obtain ⟨instances, hi, h⟩ := bind_eq_ok.mp h
  exact ⟨hid, hn, instances, expandInstances_spec hi, (Except.ok.inj h).symm⟩

variable {fixed fixed' : List Fixed}

theorem fixInstance_eq_ok {fpga id : String} : fixInstance fpga fixed id = .ok fixed' ↔
      (∀ item ∈ fixed, item.inst = id → item.fpga = fpga) ∧
        fixed' = fixed ++ [{ inst := id, fpga := fpga }] := by
  rw [fixInstance, bind_eq_ok]
  constructor
  · rintro ⟨⟨⟩, hc, h⟩
    refine ⟨fun item hi hin => ?_, (Except.ok.inj h).symm⟩
    by_contra hne
    exact raiseIf_eq_ok.mp (forM_eq_ok.mp hc item hi) ⟨hin, hne⟩
  · rintro ⟨hc, rfl⟩
    refine ⟨(), forM_eq_ok.mpr fun item hi => raiseIf_eq_ok.mpr ?_, rfl⟩
    rintro ⟨hin, hne⟩
    exact hne (hc item hi hin)

structure FixedNormal (instanceIds fpgaIds : List String) (fixed : List Fixed) : Prop where
  known : ∀ item ∈ fixed, item.inst ∈ instanceIds ∧ item.fpga ∈ fpgaIds
  unique : ∀ item ∈ fixed, ∀ item' ∈ fixed, item.inst = item'.inst → item.fpga = item'.fpga

theorem FixedNormal.fixInstance {fpga id : String}
    (h : FixedNormal instanceIds fpgaIds fixed) (hid : id ∈ instanceIds) (hf : fpga ∈ fpgaIds)
    (hfx : fixInstance fpga fixed id = .ok fixed') : FixedNormal instanceIds fpgaIds fixed' := by
  obtain ⟨hc, rfl⟩ := fixInstance_eq_ok.mp hfx
  refine ⟨fun item hi => ?_, fun item hi item' hi' hin => ?_⟩
  · rcases List.mem_append.mp hi with hi | hi
    · exact h.known item hi
    · rw [mem_singleton.mp hi]
      exact ⟨hid, hf⟩
  · rcases List.mem_append.mp hi with hi | hi <;>
      rcases List.mem_append.mp hi' with hi' | hi'
    · exact h.unique item hi item' hi' hin
    · rw [mem_singleton.mp hi'] at hin ⊢
      exact hc item hi hin
    · rw [mem_singleton.mp hi] at hin ⊢
      exact (hc item' hi' hin.symm).symm
    · rw [mem_singleton.mp hi, mem_singleton.mp hi']

variable {constraints : PartitionConstraints}

/-- What the normalisation accepts is in normal form. -/
theorem normalizeConstraints_normal {raw : RawConstraints}
    (h : normalizeConstraints fnmatchcase instanceIds fpgaIds raw = .ok constraints) :
    Normal instanceIds fpgaIds constraints := by
  obtain ⟨groups, hgp, h⟩ := bind_eq_ok.mp h
  obtain ⟨fixed, hfx, h⟩ := bind_eq_ok.mp h
  cases h
  have hfx' : FixedNormal instanceIds fpgaIds fixed := by
    refine foldlM_invariant (FixedNormal instanceIds fpgaIds) ?_
      ⟨fun _ h => absurd h not_mem_nil, fun _ h => absurd h not_mem_nil⟩ hfx
    intro item _ before after hb hi
    obtain ⟨hfp, hi⟩ := raiseIf_bind.mp hi
    obtain ⟨instances, hin, hi⟩ := bind_eq_ok.mp hi
    obtain ⟨-, -, hk⟩ := expandInstances_spec hin
    refine foldlM_invariant (FixedNormal instanceIds fpgaIds) ?_ hb hi
    intro id hid before after hb hf
    exact hb.fixInstance (hk id hid) (not_not.mp hfp) hf
  have hgp' : (groups.map Group.id).Nodup ∧ ∀ group ∈ groups, group.id ≠ "" ∧
      group.instances ≠ [] ∧ sortedSet group.instances = group.instances ∧
        ∀ id ∈ group.instances, id ∈ instanceIds := by
    refine foldlM_invariant (fun groups : List Group => (groups.map Group.id).Nodup ∧
      ∀ group ∈ groups, group.id ≠ "" ∧ group.instances ≠ [] ∧
        sortedSet group.instances = group.instances ∧ ∀ id ∈ group.instances, id ∈ instanceIds)
      ?_ ⟨by rw [map_nil]; exact nodup_nil, fun _ h => absurd h not_mem_nil⟩ hgp
    rintro item - before after ⟨hnd, hb⟩ hi
    obtain ⟨hid, hn, instances, hin, rfl⟩ := normalizeGroup_eq_ok hi
    refine ⟨Keyed.nodup_map_snoc.mpr ⟨hnd, hn⟩, fun group hg => ?_⟩
    rcases List.mem_append.mp hg with hg | hg
    · exact hb group hg
    · rw [mem_singleton.mp hg]
      exact ⟨hid, hin⟩
  exact
    { group_ids := hgp'.1
      group_id_ne := fun group hg => (hgp'.2 group hg).1
      group_ne := fun group hg => (hgp'.2 group hg).2.1
      group_sorted := fun group hg => (hgp'.2 group hg).2.2.1
      group_known := fun group hg => (hgp'.2 group hg).2.2.2
      fixed_known := hfx'.known
      fixed_unique := hfx'.unique }

variable (fnmatchcase) in
theorem normalizeGroups_sealed : ∀ (post pre : List Group), ((pre ++ post).map Group.id).Nodup →
      (∀ group ∈ post, group.id ≠ "" ∧ group.instances ≠ [] ∧
        sortedSet group.instances = group.instances ∧ ∀ id ∈ group.instances, id ∈ instanceIds) →
      (post.map fun group : Group =>
        ({ id := group.id, instances := group.instances } : RawGroup)).foldlM
          (normalizeGroup fnmatchcase instanceIds) pre = .ok (pre ++ post)
  | [], pre, _, _ => by
    rw [append_nil]
    rfl
  | group :: post, pre, hn, h => by
    obtain ⟨⟨hid, hne, hs, hk⟩, hp⟩ := forall_mem_cons.mp h
    have hsn : pre ++ group :: post = (pre ++ [group]) ++ post := by simp
    rw [hsn] at hn ⊢
    have hnw : group.id ∉ pre.map Group.id := by
      rw [map_append] at hn
      exact (Keyed.nodup_map_snoc.mp (nodup_append.mp hn).1).2
    have hst : normalizeGroup fnmatchcase instanceIds pre
        { id := group.id, instances := group.instances } = .ok (pre ++ [group]) := by
      refine raiseIf_bind.mpr ⟨hid, raiseIf_bind.mpr ⟨hnw, ?_⟩⟩
      refine bind_eq_ok.mpr ⟨group.instances, ?_, rfl⟩
      exact expandInstances_self hne hs hk
    rw [map_cons, foldlM_cons, hst]
    exact normalizeGroups_sealed post (pre ++ [group]) hn hp

variable (fnmatchcase) in
theorem normalizeFixed_sealed : ∀ (post pre : List Fixed) (n : ℕ),
    FixedNormal instanceIds fpgaIds (pre ++ post) → (((post.map fun item : Fixed =>
        ({ fpga := item.fpga, inst := some item.inst } : RawFixed)).zipIdx n).map
          Prod.swap).foldlM (normalizeFixed fnmatchcase instanceIds fpgaIds) pre = .ok (pre ++ post)
  | [], pre, n, _ => by
    rw [append_nil]
    rfl
  | item :: post, pre, n, h => by
    have hm : item ∈ pre ++ item :: post := mem_append_right _ mem_cons_self
    obtain ⟨hi, hf⟩ := h.known item hm
    have hs : pre ++ item :: post = (pre ++ [item]) ++ post := by simp
    have hst : normalizeFixed fnmatchcase instanceIds fpgaIds pre
        (n, { fpga := item.fpga, inst := some item.inst }) = .ok (pre ++ [item]) := by
      refine raiseIf_bind.mpr ⟨not_not.mpr hf, ?_⟩
      refine bind_eq_ok.mpr ⟨[item.inst], ?_, ?_⟩
      · exact expandInstances_self (cons_ne_nil _ _) rfl (forall_mem_singleton.mpr hi)
      · rw [foldlM_cons, bind_eq_ok]
        refine ⟨pre ++ [item], fixInstance_eq_ok.mpr ⟨fun other ho hsm => ?_, rfl⟩, rfl⟩
        exact h.unique other (mem_append_left _ ho) item hm hsm
    rw [map_cons, zipIdx_cons, map_cons, foldlM_cons]
    show (normalizeFixed fnmatchcase instanceIds fpgaIds pre
      (n, { fpga := item.fpga, inst := some item.inst }) >>= _) = _
    rw [hst, hs]
    exact normalizeFixed_sealed post (pre ++ [item]) (n + 1) (hs ▸ h)

theorem normalizeConstraints_sealed (h : Normal instanceIds fpgaIds constraints) :
    normalizeConstraints fnmatchcase instanceIds fpgaIds constraints.sealed = .ok constraints := by
  have hgr := normalizeGroups_sealed fnmatchcase constraints.groups [] h.group_ids
    fun group hg => ⟨h.group_id_ne group hg, h.group_ne group hg,
      h.group_sorted group hg, h.group_known group hg⟩
  have hf := normalizeFixed_sealed fnmatchcase constraints.fixed [] 0
    ⟨h.fixed_known, h.fixed_unique⟩
  refine bind_eq_ok.mpr ⟨constraints.groups, hgr, ?_⟩
  exact bind_eq_ok.mpr ⟨constraints.fixed, hf, rfl⟩

end EmuFlow.Partition
