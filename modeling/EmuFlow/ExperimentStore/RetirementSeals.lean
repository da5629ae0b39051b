import EmuFlow.ExperimentStore.RetirementRun

/-!
# The seals of quarantined trees

A quarantined tree is the sealed one with the markers of its farms. The resumption leaves the marker
at the top out of the seal it takes, and no other one.
-/

namespace EmuFlow.ExperimentStore

open Check SortedSet List DirectoryTree

variable {α : Type} {F : RunFormats α} {call : RetirementCall} {state state' : RetirementState α}
  {files start marked : RunTree α} {farms : List Path} {candidate : RetirementCandidate}
  {receipt : RetirementReceipt}

theorem below_marked (ha : Accepted F state call farms)
    (h : Marked F call state.files farms marked) (hc : candidate ∈ call.plan.candidates) :
    ∃ marks : RunEntries α,
      marked.below (call.source candidate) = marks ++ state.files.below (call.source candidate) ∧
        ∀ e, e ∈ marks ↔ ∃ farm ∈ farmsOf call state.files candidate,
          e = markEntry F call farm := by
  refine ⟨_, below_of_entries_eq_append h.entries, fun e => ?_⟩
  rw [mem_map]
  have hm : ∀ c ∈ call.plan.candidates, ∀ farm : Path,
      call.source candidate <+: call.source c ++ farm → c = candidate := by
    intro c hc' farm hp
    by_contra hne
    exact (apart_sources hc hc' (Ne.symm hne)).outside hp (prefix_append _ _)
  constructor
  · rintro ⟨e', he', rfl⟩
    obtain ⟨hmm, hb⟩ := mem_filter.mp he'
    obtain ⟨farm, hf, rfl⟩ := mem_map.mp (mem_reverse.mp hmm)
    rw [ha.farms] at hf
    obtain ⟨c, hc', hf⟩ := mem_flatMap.mp hf
    obtain ⟨rest, hr, rfl⟩ := mem_map.mp hf
    have hp := (of_decide_eq_true hb).1
    unfold markEntry at hp
    rw [append_assoc] at hp
    obtain rfl := hm c hc' _ hp
    refine ⟨rest, hr, ?_⟩
    unfold markEntry
    rw [append_assoc, drop_left]
  · rintro ⟨farm, hf, rfl⟩
    refine ⟨markEntry F call (call.source candidate ++ farm), mem_filter.mpr ⟨?_, ?_⟩, ?_⟩
    · rw [mem_reverse, ha.farms]
      exact mem_map_of_mem (mem_flatMap.mpr ⟨candidate, hc, mem_map_of_mem hf⟩)
    · unfold markEntry
      refine decide_eq_true ⟨?_, ?_⟩
      · rw [append_assoc]
        exact prefix_append _ _
      · rw [append_assoc]
        intro heq
        have := append_right_eq_self.mp heq.symm
        simp at this
    · unfold markEntry
      rw [append_assoc, drop_left]

variable {content : α} {path : Path}

theorem not_plain_of_reasons (hr : retirementReasons F files path = []) :
    (([FARM_RETIREMENT_MARKER], .leaf (.file content)) : Path × FileEntry (RunFile α)) ∉
      files.below path := by
  intro hm
  unfold retirementReasons at hr
  dsimp only at hr
  rw [append_eq_nil_iff, append_eq_nil_iff, map_eq_nil_iff] at hr
  have hn := filter_eq_nil_iff.mp hr.1.1 _ (mem_filter.mpr ⟨hm, rfl⟩)
  exact hn (by simp)

theorem eq_of_below {path pre rest : Path} (hd : files.find (path ++ pre) ≠ some .directory)
    (ht : files.find (path ++ rest) ≠ none) (hp : pre <+: rest) : pre = rest := by
  by_contra hne
  exact hd ( isDirectory_of_prefix ht
    ((prefix_append_right_inj path).mpr hp) fun heq => hne (append_cancel_left heq))

theorem leaf_of_fileAt (h : fileAt F files path = some content) :
    ∃ leaf, files.find path = some (.leaf leaf) := by
  unfold fileAt at h
  cases hl : files.leafAt path with
  | none =>
    rw [hl] at h
    cases h
  | some leaf => exact ⟨leaf, leafAt_eq_some.mp hl⟩

/-! ## the seal of a quarantined tree -/

variable {ignored : List Path}

theorem ignoredPaths_eq_ok (h : ignoredPaths F files receipt path = .ok ignored) :
    (fileAt F files (path ++ [FARM_RETIREMENT_MARKER]) = none ∧ ignored = []) ∨
      ∃ content, fileAt F files (path ++ [FARM_RETIREMENT_MARKER]) = some content ∧
        ignored = [[FARM_RETIREMENT_MARKER]] ∧ ∃ marker, F.readMarker content = .ok marker ∧
          marker.schema = FARM_RETIREMENT_MARKER_SCHEMA ∧ marker.status = "retirement-pending" ∧
            marker.planSha256 = receipt.planSha256 := by
  unfold ignoredPaths at h
  split at h
  · next hn => exact .inl ⟨hn, (Except.ok.inj h).symm⟩
  · next content hc =>
    obtain ⟨marker, hm, h⟩ := bind_eq_ok.mp h
    obtain ⟨hp, h⟩ := raiseIf_bind.mp h
    rw [not_or, not_or, not_not, not_not, not_not] at hp
    exact .inr ⟨content, hc, (Except.ok.inj h).symm, marker, hm, hp⟩

variable {e : Path × FileEntry (RunFile α)} {entries : RunEntries α}

theorem mem_withoutIgnored :
    e ∈ withoutIgnored ignored entries ↔ e ∈ entries ∧ ¬ ∃ path ∈ ignored, path <+: e.1 := by
  unfold withoutIgnored
  simp

structure Quarantined (F : RunFormats α) (call : RetirementCall) (start files : RunTree α)
    (candidate : RetirementCandidate) (marks : RunEntries α) : Prop where
  below : files.below (call.destination candidate) = marks ++ start.below (call.source candidate)
  marks : ∀ e, e ∈ marks ↔ ∃ farm ∈ farmsOf call start candidate, e = markEntry F call farm
  unmarked : [] ∈ farmsOf call start candidate →
    start.find (call.source candidate ++ [FARM_RETIREMENT_MARKER]) = none
  reasons : retirementReasons F start (call.source candidate) = []
  digest : sealEntries F (start.below (call.source candidate)) = candidate.toSeal

variable {marks : RunEntries α}

theorem Quarantined.marks_eq_nil (h : Quarantined F call start files candidate marks)
    (hfr : farmsOf call start candidate = []) : marks = [] :=
  eq_nil_iff_forall_not_mem.mpr fun e he => by
    obtain ⟨farm, hf, -⟩ := (h.marks e).mp he
    rw [hfr] at hf
    cases hf

def TopMarked (F : RunFormats α) (call : RetirementCall) (start files : RunTree α)
    (candidate : RetirementCandidate) : Prop :=
  (∀ farm ∈ farmsOf call start candidate, farm = []) ∧ (farmsOf call start candidate = [] →
      fileAt F files (call.destination candidate ++ [FARM_RETIREMENT_MARKER]) = none)

/-- But for what the seal ignores, the quarantined tree is what the source was. -/
theorem Quarantined.sealed_eq (h : Quarantined F call start files candidate marks)
    (ht : TopMarked F call start files candidate)
    (hr : receipt.planSha256 = call.expectedSha256) :
    ∃ ignored, ignoredPaths F files receipt (call.destination candidate) = .ok ignored ∧
      withoutIgnored ignored (files.below (call.destination candidate)) =
        start.below (call.source candidate) := by
  by_cases hfm : farmsOf call start candidate = []
  · refine ⟨[], ?_, ?_⟩
    · unfold ignoredPaths
      rw [ht.2 hfm]
    · rw [withoutIgnored_nil, h.below, h.marks_eq_nil hfm, nil_append]
  · obtain ⟨farm, hf⟩ := exists_mem_of_ne_nil _ hfm
    obtain rfl := ht.1 farm hf
    have hm : markEntry F call [] ∈ files.below (call.destination candidate) := by
      rw [h.below]
      exact mem_append_left _ ((h.marks _).mpr ⟨[], hf, rfl⟩)
    have hfl : fileAt F files (call.destination candidate ++ [FARM_RETIREMENT_MARKER]) =
        some (F.pendingMarker { planSha256 := call.expectedSha256 }) := by
      have hl : files.leafAt (call.destination candidate ++ [FARM_RETIREMENT_MARKER]) =
          some (.file (F.pendingMarker { planSha256 := call.expectedSha256 })) :=
        leafAt_eq_some.mpr (mem_below.mp hm).2
      unfold fileAt
      rw [hl]
    refine ⟨[[FARM_RETIREMENT_MARKER]], ?_, ?_⟩
    · unfold ignoredPaths
      rw [hfl]
      dsimp only
      rw [F.readMarker_pendingMarker, bind_eq_ok]
      refine ⟨_, rfl, raiseIf_bind.mpr ⟨?_, rfl⟩⟩
      simp [hr]
    · rw [h.below]
      unfold withoutIgnored
      rw [filter_append]
      have hg : marks.filter (fun e => ¬ ∃ path ∈ [[FARM_RETIREMENT_MARKER]], path <+: e.1) =
          [] := by
        rw [filter_eq_nil_iff]
        intro e he
        obtain ⟨farm, hf', rfl⟩ := (h.marks e).mp he
        obtain rfl := ht.1 farm hf'
        simp [markEntry]
      rw [hg, nil_append, filter_eq_self]
      intro e he
      refine decide_eq_true ?_
      rintro ⟨path, hpt, hp⟩
      obtain rfl := mem_singleton.mp hpt
      have hth := (mem_below.mp he).2
      have hn := h.unmarked hf
      have heq := eq_of_below (by rw [hn]; simp) (by rw [hth]; simp) hp
      rw [heq, hth] at hn
      cases hn

def totalBytes (F : RunFormats α) (entries : RunEntries α) : ℕ :=
  (entries.map fun e => entryBytes F e.2).sum

theorem totalBytes_append (l m : RunEntries α) :
    totalBytes F (l ++ m) = totalBytes F l + totalBytes F m := by
  unfold totalBytes
  rw [map_append, sum_append]

theorem entryBytes_le_totalBytes (h : e ∈ entries) : entryBytes F e.2 ≤ totalBytes F entries :=
  le_sum_of_mem (mem_map_of_mem h)

theorem totalBytes_withoutIgnored : ∀ {entries : RunEntries α},
    (∀ e ∈ entries, (∃ path ∈ ignored, path <+: e.1) → entryBytes F e.2 = 0) →
      totalBytes F (withoutIgnored ignored entries) = totalBytes F entries
  | [], _ => rfl
  | e :: entries, h => by
    obtain ⟨he, hr⟩ := forall_mem_cons.mp h
    have ih := totalBytes_withoutIgnored hr
    unfold withoutIgnored totalBytes at ih ⊢
    by_cases hi : ∃ path ∈ ignored, path <+: e.1
    · rw [filter_cons_of_neg (by simpa using hi), ih, map_cons, sum_cons,
        he hi, zero_add]
    · rw [filter_cons_of_pos (by simpa using hi), map_cons, sum_cons, map_cons, sum_cons, ih]

section

variable (h : Quarantined F call start files candidate marks)
include h

theorem Quarantined.link_of_fileAt (hf : [] ∉ farmsOf call start candidate)
    (hfl : fileAt F files (call.destination candidate ++ [FARM_RETIREMENT_MARKER]) =
      some content) : ∃ target,
        (([FARM_RETIREMENT_MARKER], .leaf (.link target)) : Path × FileEntry (RunFile α)) ∈
          start.below (call.source candidate) := by
  obtain ⟨leaf, hl⟩ := leaf_of_fileAt hfl
  have hmm : (([FARM_RETIREMENT_MARKER], .leaf leaf) : Path × FileEntry (RunFile α)) ∈
      files.below (call.destination candidate) := mem_below.mpr ⟨by simp, hl⟩
  rw [h.below, List.mem_append] at hmm
  have hs : (([FARM_RETIREMENT_MARKER], .leaf leaf) : Path × FileEntry (RunFile α)) ∈
      start.below (call.source candidate) := by
    refine hmm.resolve_left fun hm => ?_
    obtain ⟨farm, hf', heq⟩ := (h.marks _).mp hm
    have hp := congrArg Prod.fst heq
    simp only [markEntry] at hp
    have hn : farm = [] := by simpa using congrArg List.length hp
    exact hf (hn ▸ hf')
  cases leaf with
  | file c => exact absurd hs (not_plain_of_reasons h.reasons)
  | link target => exact ⟨target, hs⟩

theorem Quarantined.ignored_bytes
    (hi : ignoredPaths F files receipt (call.destination candidate) = .ok ignored) :
    ∀ e ∈ start.below (call.source candidate), (∃ path ∈ ignored, path <+: e.1) →
      entryBytes F e.2 = 0 := by
  rintro e he ⟨path, hp, hpr⟩
  have ht := (mem_below.mp he).2
  rcases ignoredPaths_eq_ok hi with ⟨-, rfl⟩ | ⟨content, hfl, rfl, -⟩
  · cases hp
  · obtain rfl := mem_singleton.mp hp
    by_cases hf : [] ∈ farmsOf call start candidate
    · have hn := h.unmarked hf
      have heq := eq_of_below (by rw [hn]; simp) (by rw [ht]; simp) hpr
      rw [heq, ht] at hn
      cases hn
    · obtain ⟨target, htr⟩ := h.link_of_fileAt hf hfl
      have hl := (mem_below.mp htr).2
      have heq := eq_of_below (by rw [hl]; simp) (by rw [ht]; simp) hpr
      rw [heq, ht] at hl
      rw [Option.some.inj hl]
      rfl

theorem Quarantined.topMarked
    (hcl : ∀ l l', F.canonicalSha256 l = F.canonicalSha256 l' → l.length = l'.length)
    (hig : ignoredPaths F files receipt (call.destination candidate) = .ok ignored)
    (hsl : sealEntries F (withoutIgnored ignored (files.below (call.destination candidate))) =
      candidate.toSeal) : TopMarked F call start files candidate := by
  rw [← h.digest] at hsl
  rw [h.below] at hsl
  have hby : totalBytes F (withoutIgnored ignored (marks ++ start.below (call.source candidate))) =
      totalBytes F (start.below (call.source candidate)) := congrArg Seal.bytes hsl
  have hln : (withoutIgnored ignored (marks ++ start.below (call.source candidate))).length =
      (start.below (call.source candidate)).length := by
    have := hcl _ _ (congrArg Seal.sha256 hsl)
    simpa using this
  have hsp : withoutIgnored ignored (marks ++ start.below (call.source candidate)) =
      withoutIgnored ignored marks ++ withoutIgnored ignored
        (start.below (call.source candidate)) :=
    filter_append _ _
  constructor
  · intro farm hfm
    by_contra hne
    -- the ignored entries of the candidate have no bytes, and the marker of the farm has some
    have hzr := totalBytes_withoutIgnored (F := F) (h.ignored_bytes hig)
    have hmk : markEntry F call farm ∈ withoutIgnored ignored marks := by
      have hmm := (h.marks _).mpr ⟨farm, hfm, rfl⟩
      refine mem_withoutIgnored.mpr ⟨hmm, ?_⟩
      rintro ⟨path, hpt, hpr⟩
      rcases ignoredPaths_eq_ok hig with ⟨-, rfl⟩ | ⟨content, hfl, rfl, -⟩
      · cases hpt
      · obtain rfl := mem_singleton.mp hpt
        obtain ⟨leaf, hlf⟩ := leaf_of_fileAt hfl
        have hth : (markEntry F call farm) ∈ files.below (call.destination candidate) := by
          rw [h.below]
          exact mem_append_left _ hmm
        have heq := eq_of_below (by rw [hlf]; simp)
          (by rw [(mem_below.mp hth).2]; simp) hpr
        exact hne (by simpa [markEntry] using congrArg List.length heq)
    have hle := entryBytes_le_totalBytes (F := F) hmk
    have hps : 0 < entryBytes F (markEntry F call farm).2 := F.size_pendingMarker _
    rw [hsp, totalBytes_append, hzr] at hby
    omega
  · intro hfr
    have hmr : marks = [] := h.marks_eq_nil hfr
    rw [hmr, nil_append] at hln
    rcases ignoredPaths_eq_ok hig with ⟨hnn, -⟩ | ⟨content, hfl, rfl, -⟩
    · exact hnn
    · -- the link that is taken for a marker is missing in the seal
      obtain ⟨target, htr⟩ := h.link_of_fileAt (by rw [hfr]; simp) hfl
      unfold withoutIgnored at hln
      have hal := filter_eq_self.mp (filter_sublist.eq_of_length hln) _ htr
      simp at hal

end

end EmuFlow.ExperimentStore
