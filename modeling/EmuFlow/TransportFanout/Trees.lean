import EmuFlow.TransportFanout.Buffering

/-!
# The buffer trees of the transport nets

The buffers of a candidate are planned from its sinks alone: what the loops add is that plan, unless
one of its identifiers is taken. A plan keeps the sinks, leaves at most `max_fanout` at the root and
below every buffer, and its identifiers are those of no other buffer.
-/

namespace EmuFlow.TransportFanout

open Check SortedSet List

/-! ## identifiers -/

theorem toList_pushn (c : Char) : ∀ n : ℕ, ("".pushn c n).toList = List.replicate n c
  | 0 => by simp [String.pushn_eq_repeat_push, Nat.repeat]
  | n + 1 => by
    have ih := toList_pushn c n
    rw [String.pushn_eq_repeat_push] at ih ⊢
    rw [Nat.repeat, String.toList_push, ih, ← replicate_succ']

theorem toList_zeroPadded (width number : ℕ) : (zeroPadded width number).toList =
      List.replicate (width - (toString number).length) '0' ++ Nat.toDigits 10 number := by
  rw [zeroPadded, String.toList_append, toList_pushn, Nat.toString_eq_ofList_toDigits]
  simp

theorem zeroPadded_injective {width a b : ℕ}
    (h : (zeroPadded width a).toList = (zeroPadded width b).toList) : a = b := by
  have hv : ∀ number, Nat.ofDigitChars 10 (zeroPadded width number).toList 0 = number := by
    intro number
    rw [toList_zeroPadded, Nat.ofDigitChars_append, Nat.ofDigitChars_replicate_zero, mul_zero,
      Nat.ofDigitChars_ten_toDigits]
  rw [← hv a, h, hv b]

theorem dollar_notMem_zeroPadded (width number : ℕ) : '$' ∉ (zeroPadded width number).toList := by
  rw [toList_zeroPadded, List.mem_append, mem_replicate]
  rintro (⟨-, h⟩ | h)
  · exact absurd h (by decide)
  · exact absurd (Nat.isDigit_of_mem_toDigits (by decide) (by decide) h) (by decide)

theorem split_dollar {y y' : List Char} : ∀ {x x' : List Char}, '$' ∉ x → '$' ∉ x' →
    x ++ '$' :: y = x' ++ '$' :: y' → x = x' ∧ y = y'
  | [], [], _, _, h => ⟨rfl, (List.cons.inj h).2⟩
  | [], c :: x', _, hx', h => absurd ((List.cons.inj h).1 ▸ mem_cons_self) hx'
  | c :: x, [], hx, _, h => absurd ((List.cons.inj h).1 ▸ mem_cons_self) hx
  | c :: x, c' :: x', hx, hx', h => by
    obtain ⟨hf, hr⟩ := List.cons.inj h
    rw [mem_cons, not_or] at hx hx'
    obtain ⟨hx, hy⟩ := split_dollar hx.2 hx'.2 hr
    exact ⟨by rw [hf, hx], hy⟩

theorem numbers_injective {front l g suffix : String} {a b c a' b' c' : ℕ} {l' g' rest : List Char}
    (hl : l.toList = '$' :: l') (hg : g.toList = '$' :: g') (hs : suffix.toList = '$' :: rest)
    (h : front ++ zeroPadded 6 a ++ l ++ zeroPadded 2 b ++ g ++ zeroPadded 6 c ++ suffix =
      front ++ zeroPadded 6 a' ++ l ++ zeroPadded 2 b' ++ g ++ zeroPadded 6 c' ++ suffix) :
    a = a' ∧ b = b' ∧ c = c' := by
  have hls := congrArg String.toList h
  simp only [String.toList_append, hl, hg, hs, append_assoc, cons_append] at hls
  obtain ⟨ha, hls⟩ := split_dollar (dollar_notMem_zeroPadded _ _) (dollar_notMem_zeroPadded _ _)
    (append_cancel_left hls)
  obtain ⟨hb, hls⟩ := split_dollar (dollar_notMem_zeroPadded _ _) (dollar_notMem_zeroPadded _ _)
    (append_cancel_left hls)
  obtain ⟨hc, -⟩ := split_dollar (dollar_notMem_zeroPadded _ _) (dollar_notMem_zeroPadded _ _)
    (append_cancel_left hls)
  exact ⟨zeroPadded_injective ha, zeroPadded_injective hb, zeroPadded_injective hc⟩

theorem cellId_injective {a b c a' b' c' : ℕ} (h : cellId a b c = cellId a' b' c') :
    a = a' ∧ b = b' ∧ c = c' :=
  numbers_injective rfl rfl rfl h

theorem outputNetId_injective {a b c a' b' c' : ℕ}
    (h : outputNetId a b c = outputNetId a' b' c') : a = a' ∧ b = b' ∧ c = c' :=
  numbers_injective rfl rfl rfl h

section groups

variable {α : Type} {maxFanout : ℕ} {sinks : List α}

theorem groups_nil (maxFanout : ℕ) : groups maxFanout ([] : List α) = [] := by
  have hc : (0 + maxFanout - 1) / maxFanout = 0 := by
    rcases Nat.eq_zero_or_pos maxFanout with rfl | hp
    · rfl
    · exact Nat.div_eq_of_lt (by omega)
  rw [groups, length_nil, hc]
  rfl

theorem groups_of_ne_nil (hp : 0 < maxFanout) (hs : sinks ≠ []) :
    groups maxFanout sinks = sinks.take maxFanout :: groups maxFanout (sinks.drop maxFanout) := by
  have hl : 0 < sinks.length := length_pos_iff.mpr hs
  have hc : (sinks.length + maxFanout - 1) / maxFanout =
      ((sinks.drop maxFanout).length + maxFanout - 1) / maxFanout + 1 := by
    rw [length_drop, show sinks.length + maxFanout - 1 = sinks.length - 1 + maxFanout by omega,
      Nat.add_div_right _ hp]
    rcases Nat.lt_or_ge sinks.length maxFanout with hlt | hge
    · rw [Nat.div_eq_of_lt (show sinks.length - 1 < maxFanout by omega),
        Nat.div_eq_of_lt (show sinks.length - maxFanout + maxFanout - 1 < maxFanout by omega)]
    · rw [show sinks.length - maxFanout + maxFanout - 1 = sinks.length - 1 by omega]
  unfold groups
  rw [hc, range_succ_eq_map, map_cons, map_map]
  congr 1
  · simp
  · refine map_congr_left fun index _ => ?_
    simp [drop_drop, Nat.succ_mul, Nat.add_comm]

theorem flatten_groups (hp : 0 < maxFanout) :
    ∀ (n : ℕ) {sinks : List α}, sinks.length ≤ n → (groups maxFanout sinks).flatten = sinks
  | 0, sinks, hl => by
    rw [length_eq_zero_iff.mp (Nat.le_zero.mp hl), groups_nil]
    rfl
  | n + 1, sinks, hl => by
    rcases eq_or_ne sinks [] with rfl | hne
    · rw [groups_nil]
      rfl
    · rw [groups_of_ne_nil hp hne, flatten_cons, flatten_groups hp n, take_append_drop]
      rw [length_drop]
      omega

theorem length_le_of_mem_groups {group : List α} (h : group ∈ groups maxFanout sinks) :
    group.length ≤ maxFanout := by
  obtain ⟨index, -, rfl⟩ := mem_map.mp h
  rw [length_take]
  exact min_le_left _ _

theorem length_groups_lt (hmax : 2 ≤ maxFanout) (hs : maxFanout < sinks.length) :
    (groups maxFanout sinks).length < sinks.length := by
  rw [groups, length_map, length_range]
  refine Nat.div_lt_of_lt_mul ?_
  have hd : 2 * sinks.length ≤ maxFanout * sinks.length := Nat.mul_le_mul_right _ hmax
  omega

end groups

/-! ## the plan of a candidate -/

structure Buffer where
  level : ℕ
  group : ℕ
  sinks : List Endpoint

def Buffer.pin (candidate : ℕ) (buffer : Buffer) : Endpoint :=
  inputPin (cellId candidate buffer.level buffer.group)

def Buffer.cell (candidate : ℕ) (owner : String) (buffer : Buffer) : Instance :=
  bufferInstance (cellId candidate buffer.level buffer.group) owner buffer.level

def Buffer.net (candidate : ℕ) (owner : String) (buffer : Buffer) : Net :=
  bufferNet (cellId candidate buffer.level buffer.group)
    (outputNetId candidate buffer.level buffer.group) owner buffer.sinks

structure Plan where
  buffers : List Buffer
  root : List Endpoint
  widths : List ℕ

def asBuffer (level : ℕ) (group : List Endpoint × ℕ) : Buffer where
  level := level
  group := group.2
  sinks := group.1

def levelBuffers (maxFanout level : ℕ) (sinks : List Endpoint) : List Buffer :=
  (groups maxFanout sinks).zipIdx.map (asBuffer level)

def plan (maxFanout candidate : ℕ) : ℕ → ℕ → List Endpoint → Plan
  | 0, _, sinks => { buffers := [], root := sinks, widths := [] }
  | turns + 1, level, sinks =>
    if sinks.length ≤ maxFanout then { buffers := [], root := sinks, widths := [] }
    else
      let buffers := levelBuffers maxFanout level sinks
      let above := plan maxFanout candidate turns (level + 1) (buffers.map (Buffer.pin candidate))
      { buffers := buffers ++ above.buffers, root := above.root
        widths := buffers.length :: above.widths }

variable {maxFanout candidate turns level : ℕ} {sinks : List Endpoint} {owner : String}

@[simp] theorem length_levelBuffers :
    (levelBuffers maxFanout level sinks).length = (groups maxFanout sinks).length := by
  simp [levelBuffers]

theorem flatMap_levelBuffers (hp : 0 < maxFanout) :
    (levelBuffers maxFanout level sinks).flatMap Buffer.sinks = sinks := by
  have hm : (levelBuffers maxFanout level sinks).map Buffer.sinks = groups maxFanout sinks := by
    rw [levelBuffers, map_map]
    exact zipIdx_map_fst 0 _
  rw [flatMap_def, hm, flatten_groups hp _ le_rfl]

theorem mem_levelBuffers {buffer : Buffer} (h : buffer ∈ levelBuffers maxFanout level sinks) :
    buffer.level = level ∧ buffer.sinks ∈ groups maxFanout sinks := by
  obtain ⟨⟨group, index⟩, hg, rfl⟩ := mem_map.mp h
  exact ⟨rfl, fst_mem_of_mem_zipIdx hg⟩

theorem level_le_of_mem_plan {buffer : Buffer}
    (h : buffer ∈ (plan maxFanout candidate turns level sinks).buffers) : level ≤ buffer.level := by
  induction turns generalizing level sinks with
  | zero => exact absurd h not_mem_nil
  | succ turns ih =>
    rw [plan] at h
    split_ifs at h with hs
    · exact absurd h not_mem_nil
    · rcases List.mem_append.mp h with h | h
      · exact (mem_levelBuffers h).1.ge
      · exact (Nat.le_succ _).trans (ih h)

theorem nodup_plan (maxFanout candidate : ℕ) : ∀ (turns level : ℕ) (sinks : List Endpoint),
    ((plan maxFanout candidate turns level sinks).buffers.map fun buffer =>
      (buffer.level, buffer.group)).Nodup
  | 0, _, _ => nodup_nil
  | turns + 1, level, sinks => by
    rw [plan]
    split_ifs with hs
    · exact nodup_nil
    · rw [map_append, nodup_append]
      refine ⟨?_, nodup_plan maxFanout candidate turns _ _, ?_⟩
      · rw [levelBuffers, map_map]
        have hi : (((groups maxFanout sinks).zipIdx.map Prod.snd).map
            fun index => (level, index)).Nodup := by
          refine Nodup.map (fun a b hab => (Prod.mk.inj hab).2) ?_
          rw [zipIdx_map_snd]
          exact nodup_range'
        rwa [map_map] at hi
      · intro a ha b hb hab
        obtain ⟨x, hx, rfl⟩ := mem_map.mp ha
        obtain ⟨y, hy, rfl⟩ := mem_map.mp hb
        have hl := (mem_levelBuffers hx).1
        have hle := level_le_of_mem_plan hy
        have heq := (Prod.mk.inj hab).1
        omega

/-- Enough turns leave at most `max_fanout` drivers. -/
theorem length_root_le (hmax : 2 ≤ maxFanout) : ∀ {turns level : ℕ} {sinks : List Endpoint},
    sinks.length ≤ turns → (plan maxFanout candidate turns level sinks).root.length ≤ maxFanout
  | 0, level, sinks, ht => ht.trans (Nat.zero_le _)
  | turns + 1, level, sinks, ht => by
    rw [plan]
    split_ifs with hs
    · exact hs
    · refine length_root_le hmax ?_
      have hlt := length_groups_lt hmax (not_le.mp hs)
      rw [length_map, length_levelBuffers]
      omega

/-- Below a buffer stand at most `max_fanout` sinks. -/
theorem length_sinks_le {buffer : Buffer}
    (h : buffer ∈ (plan maxFanout candidate turns level sinks).buffers) :
    buffer.sinks.length ≤ maxFanout := by
  induction turns generalizing level sinks with
  | zero => exact absurd h not_mem_nil
  | succ turns ih =>
    rw [plan] at h
    split_ifs at h with hs
    · exact absurd h not_mem_nil
    · rcases List.mem_append.mp h with h | h
      · exact length_le_of_mem_groups (mem_levelBuffers h).2
      · exact ih h

theorem plan_sinks (hp : 0 < maxFanout) : ∀ (turns level : ℕ) (sinks : List Endpoint),
    ((plan maxFanout candidate turns level sinks).root ++
      (plan maxFanout candidate turns level sinks).buffers.flatMap Buffer.sinks).Perm
    (sinks ++ (plan maxFanout candidate turns level sinks).buffers.map (Buffer.pin candidate))
  | 0, _, sinks => by simp [plan]
  | turns + 1, level, sinks => by
    rw [plan]
    split_ifs with hs
    · simp
    · have ih := plan_sinks hp turns (level + 1)
        ((levelBuffers maxFanout level sinks).map (Buffer.pin candidate))
      dsimp only
      rw [flatMap_append, map_append, flatMap_levelBuffers hp]
      refine perm_append_comm_assoc _ _ _ |>.trans ?_
      exact ih.append_left sinks

theorem sum_widths : (plan maxFanout candidate turns level sinks).widths.sum =
    (plan maxFanout candidate turns level sinks).buffers.length := by
  induction turns generalizing level sinks with
  | zero => rfl
  | succ turns ih =>
    rw [plan]
    split_ifs with hs
    · rfl
    · simp [ih]

/-! ## the loops -/

def collision (owner : String) : EmuFlowError :=
  .validation "transport fanout buffer identifier collision for %r" [owner]

def Free (growth : Growth) (candidate : ℕ) (buffer : Buffer) : Prop :=
  cellId candidate buffer.level buffer.group ∉ growth.occupiedInstances ∧
    outputNetId candidate buffer.level buffer.group ∉ growth.occupiedNets

instance (growth : Growth) (candidate : ℕ) (buffer : Buffer) :
    Decidable (Free growth candidate buffer) :=
  inferInstanceAs (Decidable (_ ∧ _))

def Growth.extend (growth : Growth) (candidate : ℕ) (owner : String) (buffers : List Buffer) :
    Growth where
  occupiedInstances := growth.occupiedInstances ++
    buffers.map fun buffer => cellId candidate buffer.level buffer.group
  occupiedNets := growth.occupiedNets ++
    buffers.map fun buffer => outputNetId candidate buffer.level buffer.group
  addedInstances := growth.addedInstances ++ buffers.map (Buffer.cell candidate owner)
  addedNets := growth.addedNets ++ buffers.map (Buffer.net candidate owner)

variable {growth : Growth} {buffer : Buffer} {buffers : List Buffer}

@[simp] theorem Growth.extend_nil : growth.extend candidate owner [] = growth := by
  simp [Growth.extend]

theorem Growth.extend_append (other : List Buffer) :
    (growth.extend candidate owner buffers).extend candidate owner other =
      growth.extend candidate owner (buffers ++ other) := by
  simp [Growth.extend]

theorem free_extend {other : ℕ}
    (h : ∀ b ∈ buffers, candidate = other → b.level = buffer.level → b.group ≠ buffer.group) :
    Free (growth.extend candidate owner buffers) other buffer ↔ Free growth other buffer := by
  have hcl : cellId other buffer.level buffer.group ∉
      buffers.map fun b => cellId candidate b.level b.group := by
    intro hm
    obtain ⟨b, hb, heq⟩ := mem_map.mp hm
    obtain ⟨hc, hl, hg⟩ := cellId_injective heq
    exact h b hb hc hl hg
  have hn : outputNetId other buffer.level buffer.group ∉
      buffers.map fun b => outputNetId candidate b.level b.group := by
    intro hm
    obtain ⟨b, hb, heq⟩ := mem_map.mp hm
    obtain ⟨hc, hl, hg⟩ := outputNetId_injective heq
    exact h b hb hc hl hg
  simp only [Free, Growth.extend, List.mem_append, not_or, hcl, hn, not_false_eq_true, and_true]

theorem addBuffer_eq {up group : List Endpoint} {index : ℕ}
    (h : Free growth candidate ⟨level, index, group⟩) :
    addBuffer owner candidate level (growth, up) (group, index) =
      .ok (growth.extend candidate owner [⟨level, index, group⟩],
        up ++ [Buffer.pin candidate ⟨level, index, group⟩]) := by
  refine raiseIf_bind.mpr ⟨?_, rfl⟩
  rintro (hc | hn)
  · exact h.1 hc
  · exact h.2 hn

theorem addBuffer_collides {up group : List Endpoint} {index : ℕ}
    (h : ¬ Free growth candidate ⟨level, index, group⟩) :
    addBuffer owner candidate level (growth, up) (group, index) = .error (collision owner) := by
  have ht : cellId candidate level index ∈ growth.occupiedInstances ∨
      outputNetId candidate level index ∈ growth.occupiedNets := by
    by_contra hf
    rw [not_or] at hf
    exact h hf
  simp only [addBuffer, raiseIf, if_pos ht]
  rfl

theorem foldlM_addBuffer : ∀ {l : List (List Endpoint × ℕ)} {growth : Growth} {up : List Endpoint},
    (l.map Prod.snd).Nodup → (∀ group ∈ l, Free growth candidate (asBuffer level group)) →
    l.foldlM (addBuffer owner candidate level) (growth, up) =
      .ok (growth.extend candidate owner (l.map (asBuffer level)),
        up ++ (l.map (asBuffer level)).map (Buffer.pin candidate))
  | [], growth, up, _, _ => by
    simp only [map_nil, Growth.extend_nil, append_nil]
    rfl
  | group :: l, growth, up, hnd, hf => by
    rw [map_cons, nodup_cons] at hnd
    obtain ⟨hg, hr⟩ := forall_mem_cons.mp hf
    have hn : ∀ other ∈ l, Free (growth.extend candidate owner [asBuffer level group]) candidate
          (asBuffer level other) := by
      intro other ho
      refine (free_extend ?_).mpr (hr other ho)
      intro b hb _ _ hi
      rw [mem_singleton.mp hb] at hi
      exact hnd.1 (mem_map.mpr ⟨other, ho, hi.symm⟩)
    rw [foldlM_cons, addBuffer_eq hg]
    refine (foldlM_addBuffer hnd.2 hn).trans ?_
    rw [Growth.extend_append, append_assoc]
    rfl

theorem foldlM_addBuffer_collides : ∀ {l : List (List Endpoint × ℕ)} {growth : Growth}
    {up : List Endpoint}, (∃ group ∈ l, ¬ Free growth candidate (asBuffer level group)) →
    l.foldlM (addBuffer owner candidate level) (growth, up) = .error (collision owner)
  | [], _, _, h => by
    obtain ⟨_, hg, -⟩ := h
    exact absurd hg not_mem_nil
  | group :: l, growth, up, h => by
    rw [foldlM_cons]
    by_cases hg : Free growth candidate (asBuffer level group)
    · rw [addBuffer_eq hg]
      refine foldlM_addBuffer_collides ?_
      obtain ⟨other, ho, ht⟩ := h
      rcases mem_cons.mp ho with rfl | ho
      · exact absurd hg ht
      · refine ⟨other, ho, fun hf => ht ⟨fun hm => hf.1 ?_, fun hm => hf.2 ?_⟩⟩
        · exact mem_append_left _ hm
        · exact mem_append_left _ hm
    · rw [addBuffer_collides hg]
      rfl

theorem nodup_level (maxFanout : ℕ) (sinks : List Endpoint) :
    ((groups maxFanout sinks).zipIdx.map Prod.snd).Nodup := by
  rw [zipIdx_map_snd]
  exact nodup_range'

def Tree.follow (tree : Tree) (owner : String) (candidate : ℕ) (planned : Plan) : Tree where
  growth := tree.growth.extend candidate owner planned.buffers
  downstreamSinks := planned.root
  level := tree.level + planned.widths.length
  levelWidths := tree.levelWidths ++ planned.widths

theorem growLevels_eq : ∀ {turns : ℕ} {tree : Tree},
    (∀ buffer ∈ (plan maxFanout candidate turns tree.level tree.downstreamSinks).buffers,
      Free tree.growth candidate buffer) →
    growLevels owner maxFanout candidate turns tree = .ok (tree.follow owner candidate
        (plan maxFanout candidate turns tree.level tree.downstreamSinks))
  | 0, tree, _ => by simp [growLevels, plan, Tree.follow]
  | turns + 1, tree, hf => by
    rw [plan] at hf ⊢
    rw [growLevels]
    split_ifs at hf ⊢ with hs
    · simp [Tree.follow]
    · have hl : ∀ group ∈ (groups maxFanout tree.downstreamSinks).zipIdx,
          Free tree.growth candidate (asBuffer tree.level group) := fun group hg =>
        hf _ (mem_append_left _ (mem_map_of_mem hg))
      have ha : ∀ buffer ∈ (plan maxFanout candidate turns (tree.level + 1)
          ((levelBuffers maxFanout tree.level tree.downstreamSinks).map
            (Buffer.pin candidate))).buffers,
          Free (tree.growth.extend candidate owner
            (levelBuffers maxFanout tree.level tree.downstreamSinks)) candidate buffer := by
        intro buffer hbf
        refine (free_extend ?_).mpr (hf buffer (mem_append_right _ hbf))
        intro b hb _ heq
        have hb := (mem_levelBuffers hb).1
        have hle := level_le_of_mem_plan hbf
        omega
      dsimp only
      rw [foldlM_addBuffer (nodup_level _ _) hl]
      refine (growLevels_eq ha).trans ?_
      simp only [Tree.follow, Growth.extend_append, levelBuffers, nil_append, length_map,
        append_assoc, length_cons]
      congr 2
      omega

theorem growLevels_collides : ∀ {turns : ℕ} {tree : Tree},
    (∃ buffer ∈ (plan maxFanout candidate turns tree.level tree.downstreamSinks).buffers,
      ¬ Free tree.growth candidate buffer) →
    growLevels owner maxFanout candidate turns tree = .error (collision owner)
  | 0, tree, h => by
    obtain ⟨_, hb, -⟩ := h
    exact absurd hb not_mem_nil
  | turns + 1, tree, h => by
    rw [plan] at h
    rw [growLevels]
    split_ifs at h ⊢ with hs
    · obtain ⟨_, hb, -⟩ := h
      exact absurd hb not_mem_nil
    · by_cases hl : ∀ group ∈ (groups maxFanout tree.downstreamSinks).zipIdx,
          Free tree.growth candidate (asBuffer tree.level group)
      · dsimp only
        rw [foldlM_addBuffer (nodup_level _ _) hl]
        refine growLevels_collides ?_
        obtain ⟨buffer, hb, ht⟩ := h
        rcases List.mem_append.mp hb with hb | hb
        · obtain ⟨group, hg, rfl⟩ := mem_map.mp hb
          exact absurd (hl group hg) ht
        · refine ⟨buffer, hb,
            fun hf => ht ⟨fun hm => hf.1 ?_, fun hm => hf.2 ?_⟩⟩
          · exact mem_append_left _ hm
          · exact mem_append_left _ hm
      · have ht : ∃ group ∈ (groups maxFanout tree.downstreamSinks).zipIdx,
            ¬ Free tree.growth candidate (asBuffer tree.level group) := by
          by_contra hf
          refine hl fun group hg => ?_
          by_contra hn
          exact hf ⟨group, hg, hn⟩
        dsimp only
        rw [foldlM_addBuffer_collides ht]
        rfl

/-! ## one candidate -/

def planOf (maxFanout candidate : ℕ) (net : Net) : Plan :=
  plan maxFanout candidate net.sinks.length 0 (sortedBy endpointKey net.sinks)

def Net.rewired (maxFanout candidate : ℕ) (net : Net) : Net :=
  { net with
    sinks := (planOf maxFanout candidate net).root
    fanout := some (planOf maxFanout candidate net).root.length }

def recordOf (maxFanout candidate : ℕ) (net : Net) (netIndex : ℕ) : Record where
  net := net.id
  netIndex := netIndex
  originalFanout := net.sinks.length
  rootFanout := (planOf maxFanout candidate net).root.length
  levels := (planOf maxFanout candidate net).widths.length
  levelBufferCounts := (planOf maxFanout candidate net).widths
  bufferCells := (planOf maxFanout candidate net).widths.sum

variable {net : Net} {netIndex : ℕ}

theorem leaf_sinks (hpos : 0 < maxFanout) (hsinks : maxFanout < net.sinks.length) :
    ((planOf maxFanout candidate net).buffers.take
      ((planOf maxFanout candidate net).widths.headD 0)).flatMap Buffer.sinks =
        sortedBy endpointKey net.sinks := by
  obtain ⟨turns, hturns⟩ := Nat.exists_eq_succ_of_ne_zero (Nat.ne_of_gt (Nat.zero_lt_of_lt hsinks))
  have hmore : ¬ (sortedBy endpointKey net.sinks).length ≤ maxFanout := by
    rw [length_sortedBy]
    omega
  rw [planOf, hturns, plan, if_neg hmore]
  dsimp only
  rw [headD_cons, take_left, flatMap_levelBuffers hpos]

theorem bufferCandidate_eq (hp : 0 < maxFanout) (hs : maxFanout < net.sinks.length)
    (hf : ∀ buffer ∈ (planOf maxFanout candidate net).buffers, Free growth candidate buffer) :
    bufferCandidate maxFanout candidate growth net netIndex = .ok (net.rewired maxFanout candidate,
        growth.extend candidate net.id (planOf maxFanout candidate net).buffers,
        recordOf maxFanout candidate net netIndex) := by
  unfold bufferCandidate
  dsimp only
  rw [length_sortedBy, @growLevels_eq maxFanout candidate net.id net.sinks.length
    { growth := growth, downstreamSinks := sortedBy endpointKey net.sinks } hf]
  refine raiseIf_bind.mpr ⟨?_, ?_⟩
  · have hl : ((((growth.extend candidate net.id (planOf maxFanout candidate
      net).buffers).addedNets.drop
        growth.addedNets.length).take ((planOf maxFanout candidate net).widths.headD 0)).flatMap
          Net.sinks) = sortedBy endpointKey net.sinks := by
      rw [Growth.extend, drop_left, ← map_take, flatMap_map]
      exact leaf_sinks hp hs
    rw [not_not]
    exact (congrArg _ hl).trans (sortedBy_idem _ _)
  · simp only [Tree.follow, Net.rewired, recordOf, planOf, Nat.zero_add, nil_append]
    rfl

theorem bufferCandidate_collides
    (h : ∃ buffer ∈ (planOf maxFanout candidate net).buffers, ¬ Free growth candidate buffer) :
    bufferCandidate maxFanout candidate growth net netIndex = .error (collision net.id) := by
  unfold bufferCandidate
  dsimp only
  rw [length_sortedBy, @growLevels_collides maxFanout candidate net.id net.sinks.length
    { growth := growth, downstreamSinks := sortedBy endpointKey net.sinks } h]
  rfl

end EmuFlow.TransportFanout
