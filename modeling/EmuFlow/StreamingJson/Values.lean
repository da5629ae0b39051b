import EmuFlow.StreamingJson.Window

/-!
# Streaming JSON: reading and skipping values

`read_value` decodes the buffer as soon as it can. A value that is no number is not decoded before
it is there whole; a number is decoded with its first digit, so a chunk boundary behind a digit of
it cuts it.
-/

namespace EmuFlow.StreamingJson

open Check List Reader

def Whole (c off : ℕ) (numeral : Numeral) : Prop :=
  (off + numeral.signLength) / c = (off + numeral.1.length - 1) / c

instance (c off : ℕ) (numeral : Numeral) : Decidable (Whole c off numeral) :=
  inferInstanceAs (Decidable (_ = _))

theorem Numeral.signLength_lt (numeral : Numeral) : numeral.signLength < numeral.1.length := by
  obtain ⟨d, rest, -, ⟨ht, hs⟩ | ⟨ht, hs⟩⟩ := numeral.digits
  · rw [ht, hs, length_cons, length_cons]
    omega
  · rw [ht, hs, length_cons]
    omega

theorem rawDecode_numeral {text r : Text} {numeral : Numeral}
    (h : scanNumber text = some (numeral.1, r)) : rawDecode text = some (.number numeral, r) := by
  obtain ⟨c, rest, hcn, -, hq, ho, hb⟩ := numeral.render_cons
  have ht : text = numeral.1 ++ r := (scanNumber_cases h).1
  have hw := scanLiteral_numeral numeral r
  have hs := scanNumeral_eq numeral h
  rw [ht] at hs
  rw [rawDecode, ht]
  rw [hcn, cons_append] at hs hw ⊢
  rw [length_cons, scanOnce, if_neg hq, if_neg ho, if_neg hb, hw, hs]
  rfl

section read

variable {doc : Text} {c m : ℕ} {r : Reader} {off : ℕ} {tree : Tree} {rest : Text}

theorem readLoop_there (h : Window doc c m r off (off + tree.render.length))
    (hdoc : doc.drop off = tree.render ++ rest)
    (ht : tree.render.length ≤ (r.buffer.drop r.position).length)
    (hm : tree.render.length ≤ m) (hr : tree.isNumber = true → Stops isNumberChar rest)
    (fuel : ℕ) : ∃ r', readLoop (fuel + 1) r = .ok (tree, r') ∧
      At doc c m r' (off + tree.render.length) := by
  have hs := h.left_split
  rw [hdoc] at hs
  obtain ⟨w, hw⟩ : ∃ w, r.buffer.drop r.position = tree.render ++ w := by
    obtain ⟨w, hw⟩ := prefix_of_prefix_length_le (prefix_append tree.render rest)
      (hs ▸ prefix_append _ r.stream) ht
    exact ⟨w, hw.symm⟩
  have hwr : w ++ r.stream = rest := by
    rw [hw, append_assoc] at hs
    exact append_cancel_left hs
  have hd : rawDecode (r.buffer.drop r.position) = some (tree, w) := by
    rw [hw]
    refine rawDecode_render tree fun hn ch w' hcn => ?_
    exact hr hn ch (w' ++ r.stream) (by rw [← hwr, hcn, cons_append])
  have hl := congrArg List.length hw
  rw [length_append, length_drop] at hl
  have hp := h.position_le
  have he : r.buffer.length - w.length = r.position + tree.render.length := by omega
  refine ⟨_, ?_, h.move ht (Nat.le_refl _)⟩
  rw [readLoop, hd]
  dsimp only
  rw [he, if_neg (by rw [h.bound]; omega)]

theorem Window.unfinished {limit : ℕ} (h : Window doc c m r off limit)
    (hdoc : doc.drop off = tree.render ++ rest)
    (hl : (r.buffer.drop r.position).length < tree.render.length) :
    ∃ q, q ≠ [] ∧ tree.render = r.buffer.drop r.position ++ q ∧ r.stream = q ++ rest := by
  have hs := h.left_split
  rw [hdoc] at hs
  obtain ⟨q, hq⟩ := prefix_of_prefix_length_le (prefix_append _ r.stream)
    (hs ▸ prefix_append tree.render rest) hl.le
  refine ⟨q, ?_, hq.symm, ?_⟩
  · rintro rfl
    rw [← hq, append_nil] at hl
    exact absurd hl (lt_irrefl _)
  · rw [← hq, append_assoc] at hs
    exact append_cancel_left hs

theorem readLoop_fill (h : Window doc c m r off (off + tree.render.length)) (hc : 0 < c)
    (hdoc : doc.drop off = tree.render ++ rest)
    (hl : (r.buffer.drop r.position).length < tree.render.length)
    (hm : tree.render.length ≤ m) (hn : rawDecode (r.buffer.drop r.position) = none) (fuel : ℕ) :
    readLoop (fuel + 1) r = readLoop fuel r.fill.2 ∧
      Window doc c m r.fill.2 off (off + tree.render.length) ∧
      r.fill.2.stream.length < r.stream.length ∧
      (r.buffer.drop r.position).length < (r.fill.2.buffer.drop r.fill.2.position).length := by
  obtain ⟨q, hq, -, hst⟩ := h.unfinished hdoc hl
  have hs : r.stream ≠ [] := by
    rw [hst]
    exact fun hnl => hq (append_eq_nil_iff.mp hnl).1
  have hln := h.lengths
  obtain ⟨ht, hr⟩ := h.fill hc hs (by omega)
  refine ⟨?_, hr⟩
  rw [length_drop] at hl
  rw [readLoop, hn]
  dsimp only
  rw [if_neg (by rw [h.bound]; omega), if_pos ht]

theorem readLoop_value (hc : 0 < c) (hdoc : doc.drop off = tree.render ++ rest)
    (hm : tree.render.length ≤ m) (hn : tree.isNumber = false) :
    ∀ (fuel : ℕ) {r : Reader}, Window doc c m r off (off + tree.render.length) →
      r.stream.length < fuel → ∃ r', readLoop fuel r = .ok (tree, r') ∧
          At doc c m r' (off + tree.render.length)
  | 0, r, h, hf => absurd hf (Nat.not_lt_zero _)
  | fuel + 1, r, h, hf => by
    by_cases ht : tree.render.length ≤ (r.buffer.drop r.position).length
    · exact readLoop_there h hdoc ht hm (by simp [hn]) fuel
    · have hl := Nat.lt_of_not_le ht
      obtain ⟨q, hq, hs, -⟩ := h.unfinished hdoc hl
      obtain ⟨hlp, hfl, hsh, -⟩ := readLoop_fill h hc hdoc hl hm
        (rawDecode_of_take hs hq hn) fuel
      rw [hlp]
      exact readLoop_value hc hdoc hm hn fuel hfl (by omega)

variable {numeral : Numeral}

theorem Window.reach {limit d : ℕ} (h : Window doc c m r off limit) (hc : 0 < c)
    (hl : limit / c ≤ d / c) (hd : d < off + (r.buffer.drop r.position).length) :
    off + (r.buffer.drop r.position).length ≤ c * (d / c + 1) ∧
      (r.stream = [] ∨ off + (r.buffer.drop r.position).length = c * (d / c + 1)) := by
  have hln := h.lengths
  have hn := h.near
  have hle : off + (r.buffer.drop r.position).length ≤ c * (d / c + 1) := by
    have hml := Nat.mul_le_mul_left c (Nat.succ_le_succ hl)
    rw [Nat.succ_eq_add_one, Nat.succ_eq_add_one] at hml
    omega
  refine ⟨hle, ?_⟩
  rcases h.aligned with hnl | ⟨k, hk⟩
  · exact .inl hnl
  · right
    have hkd : d / c < k := by
      rw [Nat.div_lt_iff_lt_mul hc, Nat.mul_comm, ← hk]
      omega
    have hml := Nat.mul_le_mul_left c (Nat.succ_le_of_lt hkd)
    rw [Nat.succ_eq_add_one, ← hk] at hml
    omega

section

variable (h : At doc c m r off) (hc : 0 < c) (hdoc : doc.drop off = numeral.1 ++ rest)
  (hm : numeral.1.length ≤ m) (hsome : r.position < r.buffer.length)
include h hc hdoc hm hsome

theorem readLoop_digit (fuel : ℕ) :
    ∃ fuel' r', readLoop (fuel + 2) r = readLoop (fuel' + 1) r' ∧
      Window doc c m r' off (off + numeral.signLength) ∧
      numeral.signLength < (r'.buffer.drop r'.position).length := by
  have hp : 0 < (r.buffer.drop r.position).length := by
    rw [length_drop]
    omega
  by_cases hd : numeral.signLength < (r.buffer.drop r.position).length
  · exact ⟨fuel + 1, r, rfl, Window.mono h (Nat.le_add_right _ _), hd⟩
  · have hsn : numeral.signLength = 1 ∧ ∃ d rest', numeral.1 = '-' :: d :: rest' := by
      obtain ⟨d, rest', -, ⟨ht, hsg⟩ | ⟨ht, hsg⟩⟩ := numeral.digits
      · exact ⟨hsg, d, rest', ht⟩
      · omega
    obtain ⟨hsg, d, rest', ht⟩ := hsn
    have ho : (r.buffer.drop r.position).length = 1 := by omega
    have hls : (r.buffer.drop r.position).length < (Tree.number numeral).render.length := by
      rw [Tree.render, ht, length_cons, length_cons]
      omega
    obtain ⟨q, -, hsp, hst⟩ := @Window.unfinished _ _ _ _ _ (.number numeral) _ _ h hdoc hls
    have hmn : r.buffer.drop r.position = ['-'] := by
      obtain ⟨ch, hch⟩ := length_eq_one_iff.mp ho
      rw [Tree.render, hch, ht] at hsp
      rw [hch, (List.cons.inj hsp).1]
    have hnn : rawDecode (r.buffer.drop r.position) = none := by
      rw [hmn]
      rfl
    have hs : r.stream ≠ [] := by
      rw [hst]
      intro hn
      rw [(append_eq_nil_iff.mp hn).1, append_nil] at hsp
      rw [hsp] at hls
      exact absurd hls (lt_irrefl _)
    have hl := h.lengths
    have ho' := ho
    rw [length_drop] at ho'
    obtain ⟨htr, hf, -, hg⟩ := (Window.mono h (Nat.le_add_right off 1)).fill hc hs (by omega)
    rw [hsg]
    refine ⟨fuel, r.fill.2, ?_, hf, by omega⟩
    rw [Tree.render, ho] at hls
    rw [readLoop, hnn]
    dsimp only
    rw [if_neg (by rw [h.bound]; omega), if_pos htr]

theorem readLoop_number (hrs : Stops isNumberChar rest)
    (hwh : Whole c off numeral) (fuel : ℕ) :
    ∃ r', readLoop (fuel + 2) r = .ok (.number numeral, r') ∧
      At doc c m r' (off + numeral.1.length) := by
  obtain ⟨fuel', r', hlp, hw, hdg⟩ := readLoop_digit h hc hdoc hm hsome fuel
  have hlt := numeral.signLength_lt
  obtain ⟨-, hr⟩ := hw.reach hc (Nat.le_refl _)
    (show off + numeral.signLength < _ by omega)
  have hl := hw.lengths
  have hd := congrArg List.length hdoc
  rw [length_append] at hd
  have hdr : (doc.drop off).length = doc.length - off := length_drop
  -- the digits end before the boundary that the buffer reaches
  have ht : numeral.1.length ≤ (r'.buffer.drop r'.position).length := by
    rcases hr with hn | hr
    · rw [hn, length_nil] at hl
      omega
    · have hmd := Nat.lt_mul_div_succ (off + numeral.1.length - 1) hc
      rw [← hwh] at hmd
      omega
  rw [hlp]
  exact @readLoop_there _ _ _ _ _ (.number numeral) _ (hw.mono (by
    rw [Tree.render]
    omega)) hdoc ht hm (fun _ => hrs) fuel'

theorem readLoop_cut (hct : ¬Whole c off numeral) (fuel : ℕ) :
    ∃ other r' off' ch rest', readLoop (fuel + 2) r = .ok (.number other, r') ∧
      At doc c m r' off' ∧ doc.drop off' = ch :: rest' ∧ isNumberChar ch = true := by
  obtain ⟨fuel', r', hlp, hwn, hdg⟩ := readLoop_digit h hc hdoc hm hsome fuel
  have hlt := numeral.signLength_lt
  obtain ⟨hrc, -⟩ := hwn.reach hc (Nat.le_refl _)
    (show off + numeral.signLength < _ by omega)
  have hls : (r'.buffer.drop r'.position).length < (Tree.number numeral).render.length := by
    by_contra hge
    rw [Tree.render] at hge
    refine hct (Nat.le_antisymm (Nat.div_le_div_right (by omega)) ?_)
    rw [← Nat.lt_succ_iff, Nat.div_lt_iff_lt_mul hc, Nat.mul_comm, Nat.succ_eq_add_one]
    omega
  obtain ⟨q, hq, hsp, hst⟩ :=
    @Window.unfinished _ _ _ _ _ (.number numeral) _ _ hwn hdoc hls
  obtain ⟨⟨n, w⟩, hsc⟩ := numeral.scanNumber_prefix hsp hdg
  obtain ⟨other, rfl, hp⟩ := scanNumber_sound hsc
  have hdc := rawDecode_numeral hsc
  have hln := congrArg List.length hp
  rw [length_append] at hln
  have hk : other.1.length ≤ (r'.buffer.drop r'.position).length := by omega
  have hdr : (r'.buffer.drop r'.position).length = r'.buffer.length - r'.position := length_drop
  have hpo := hwn.position_le
  have hen : r'.buffer.length - w.length = r'.position + other.1.length := by omega
  -- what comes next is still of the number
  obtain ⟨ch, tail, hcn⟩ : ∃ ch tail, w ++ q = ch :: tail :=
    exists_cons_of_ne_nil fun hnl => hq (append_eq_nil_iff.mp hnl).2
  have hnm : numeral.1 = other.1 ++ (ch :: tail) := by
    rw [← hcn, ← append_assoc, ← hp]
    exact hsp
  have hsg : off + numeral.signLength ≤ off + other.1.length := by
    obtain ⟨d, rest', hd, ⟨htx, hsg⟩ | ⟨-, hsg⟩⟩ := numeral.digits
    · have hps := other.signLength_lt
      omega
    · omega
  refine ⟨other, _, off + other.1.length, ch, tail ++ rest, ?_, hwn.move hk hsg, ?_,
    numeral.chars ch (hnm ▸ mem_append_right _ mem_cons_self)⟩
  · rw [Tree.render] at hls
    rw [hlp, readLoop, hdc]
    dsimp only
    rw [hen, if_neg (by rw [hwn.bound]; omega)]
  · refine drop_add_of_append ?_
    rw [hdoc, hnm, append_assoc]
    rfl

end

theorem isPySpace_of_isNumberChar {ch : Char} (h : isNumberChar ch = true) :
    isPySpace ch = false := by
  simp only [isNumberChar, isDigit, Bool.or_eq_true, Bool.and_eq_true, decide_eq_true_eq] at h
  rcases h with ((((⟨h0, h9⟩ | rfl) | rfl) | rfl) | rfl) | rfl
  · have hl : 48 ≤ ch.toNat := h0
    have hh : ch.toNat ≤ 57 := h9
    simp only [isPySpace, Bool.or_eq_false_iff, Bool.and_eq_false_iff, decide_eq_false_iff_not]
    omega
  all_goals decide

theorem Tree.stops_pySpace (tree : Tree) (rest : Text) : Stops isPySpace (tree.render ++ rest) := by
  cases tree with
  | literal word => cases word <;> exact stops_cons.mpr (by decide)
  | number numeral =>
    obtain ⟨ch, text, hcn, -⟩ := numeral.render_cons
    rw [Tree.render, hcn]
    exact stops_cons.mpr (isPySpace_of_isNumberChar (numeral.chars ch (hcn ▸ mem_cons_self)))
  | string pieces => exact stops_cons.mpr (by decide)
  | emptyArray inner => exact stops_cons.mpr (by decide)
  | array inner items => exact stops_cons.mpr (by decide)
  | emptyObject inner => exact stops_cons.mpr (by decide)
  | object inner members => exact stops_cons.mpr (by decide)

theorem Tree.append_ne_nil (tree : Tree) (rest : Text) : tree.render ++ rest ≠ [] := by
  obtain ⟨ch, text, hcn, -⟩ := tree.render_cons
  rw [hcn]
  exact cons_ne_nil _ _

/-- A value that is read at the offset is no number cut by a chunk boundary. -/
def Safe (c off : ℕ) : Tree → Prop
  | .number numeral => Whole c off numeral
  | _ => True

instance (c off : ℕ) (tree : Tree) : Decidable (Safe c off tree) := by
  cases tree <;> unfold Safe <;> infer_instance

section

variable (h : At doc c m r off) (hc : 0 < c) (space : Space)
  (hdoc : doc.drop off = space.1 ++ (tree.render ++ rest)) (hm : tree.render.length ≤ m)
include h hc space hdoc hm

/-- A value that no boundary cuts is read. -/
theorem At.readValue (hr : tree.isNumber = true → Stops isNumberChar rest)
    (hs : Safe c (off + space.1.length) tree) : ∃ r', r.readValue = .ok (tree, r') ∧
      At doc c m r' (off + space.1.length + tree.render.length) := by
  obtain ⟨ha, hsome⟩ := h.skipWhitespace hc space hdoc (tree.stops_pySpace rest)
  have hd' := drop_add_of_append hdoc
  cases tree with
  | number numeral =>
    exact readLoop_number ha hc hd' hm (hsome (Tree.append_ne_nil _ rest)) (hr rfl) hs _
  | _ =>
    exact readLoop_value hc hd' hm rfl _ (Window.mono ha (Nat.le_add_right _ _)) (by omega)

theorem At.readValue_cut (hct : ¬Safe c (off + space.1.length) tree) :
    ∃ other r' off' ch rest', r.readValue = .ok (other, r') ∧ At doc c m r' off' ∧
      doc.drop off' = ch :: rest' ∧ isNumberChar ch = true := by
  obtain ⟨ha, hsome⟩ := h.skipWhitespace hc space hdoc (tree.stops_pySpace rest)
  have hd' := drop_add_of_append hdoc
  cases tree with
  | number numeral =>
    obtain ⟨other, r', hr⟩ :=
      readLoop_cut ha hc hd' hm (hsome (Tree.append_ne_nil _ rest)) hct _
    exact ⟨.number other, r', hr⟩
  | _ => exact absurd trivial hct

end

end read

end EmuFlow.StreamingJson
