import EmuFlow.StreamingJson.Values

/-!
# Streaming JSON: walks

A walk over a document gets what `json.loads` gives exactly when no chunk boundary cuts a number
that `read_value` decodes by itself.
-/

namespace EmuFlow.StreamingJson

open Check List

/-! ## skipping a container -/

section skip

variable (doc : Text) (c m : ℕ)

/-- The loop of `skip_value` goes through the text. -/
def Through (text : Text) (s s' : Reader.Skip) : Prop :=
  ∀ (r : Reader) (off : ℕ) (rest : Text), At doc c m r off → doc.drop off = text ++ rest →
    ∀ fuel, ∃ r', Reader.skipLoop (fuel + text.length) s r = Reader.skipLoop fuel s' r' ∧
      At doc c m r' (off + text.length)

variable {doc c m}

theorem Through.nil (s : Reader.Skip) : Through doc c m [] s s := fun _ _ _ h _ _ => ⟨_, rfl, h⟩

theorem Through.append {a b : Text} {s s' s'' : Reader.Skip} (ha : Through doc c m a s s')
    (hb : Through doc c m b s' s'') : Through doc c m (a ++ b) s s'' := by
  intro r off rest h hd fuel
  rw [append_assoc] at hd
  obtain ⟨r₁, hl₁, h₁⟩ := ha r off _ h hd (fuel + b.length)
  obtain ⟨r₂, hl₂, h₂⟩ := hb r₁ _ _ h₁ (drop_add_of_append hd) fuel
  refine ⟨r₂, ?_, ?_⟩
  · rw [← hl₂, ← hl₁, length_append, Nat.add_assoc, Nat.add_comm b.length]
  · rwa [length_append, ← Nat.add_assoc]

theorem Through.char (hc : 0 < c) {ch : Char} {s s' : Reader.Skip} (hs : s.stack ≠ [])
    (hst : s.step ch = .ok s') : Through doc c m [ch] s s' := by
  intro r off rest h hd fuel
  obtain ⟨ht, ha⟩ := h.take_cons hc hd
  have hp : r.take = (some ch, r.take.2) := Prod.ext ht rfl
  refine ⟨r.take.2, ?_, ha⟩
  rw [length_singleton, Reader.skipLoop, if_neg hs, hp]
  dsimp only
  rw [hst]
  rfl

variable {stack : List Char}

theorem Through.plain (hc : 0 < c) (hs : stack ≠ []) :
    ∀ {text : Text}, (∀ ch ∈ text, ch ≠ '"' ∧ ch ≠ '{' ∧ ch ≠ '[' ∧ ch ≠ '}' ∧ ch ≠ ']') →
      Through doc c m text { stack := stack } { stack := stack }
  | [], _ => .nil _
  | ch :: text, h => by
    obtain ⟨⟨h1, h2, h3, h4, h5⟩, ht⟩ := forall_mem_cons.mp h
    have hst : Reader.Skip.step { stack := stack } ch = .ok { stack := stack } := by
      simp [Reader.Skip.step, h1, h2, h3, h4, h5]
    exact Through.append (Through.char hc hs hst) (Through.plain hc hs ht)

theorem Through.space (hc : 0 < c) (hs : stack ≠ []) (space : Space) :
    Through doc c m space.1 { stack := stack } { stack := stack } := by
  refine plain hc hs fun ch hch => ?_
  have hsp := space.2 ch hch
  simp only [isJsonSpace, Bool.or_eq_true, decide_eq_true_eq] at hsp
  rcases hsp with ((rfl | rfl) | rfl) | rfl <;> decide

theorem hexValue_ne {ch : Char} (h : hexValue ch ≠ none) : ch ≠ '"' ∧ ch ≠ '\\' := by
  constructor <;>
  · rintro rfl
    exact h (by decide)

theorem decodeHex_ne {a b d e : Char} (h : (decodeHex a b d e).isSome = true) :
    hexValue a ≠ none ∧ hexValue b ≠ none ∧ hexValue d ≠ none ∧ hexValue e ≠ none := by
  unfold decodeHex at h
  split at h
  · next ha hb hd he => simp [ha, hb, hd, he]
  · cases h

theorem Through.stringChar (hc : 0 < c) {stack : List Char} (hs : stack ≠ []) {ch : Char}
    (hch : ch ≠ '"' ∧ ch ≠ '\\') : Through doc c m [ch] { stack := stack, inString := true }
      { stack := stack, inString := true } :=
  Through.char hc hs (by simp [Reader.Skip.step, hch.1, hch.2])

section

variable (hc : 0 < c) (hs : stack ≠ [])
include hc hs

theorem Through.escape (ch : Char) : Through doc c m ['\\', ch] { stack := stack, inString := true }
      { stack := stack, inString := true } :=
  @Through.append doc c m ['\\'] [ch] _ { stack := stack, inString := true, escaped := true } _
    (Through.char hc hs (by simp [Reader.Skip.step]))
    (Through.char hc hs (by simp [Reader.Skip.step]))

theorem Through.piece (piece : Piece) :
    Through doc c m piece.render { stack := stack, inString := true }
      { stack := stack, inString := true } := by
  cases piece with
  | plain ch h => exact stringChar hc hs ⟨h.1, h.2.1⟩
  | escaped ch h => exact escape hc hs ch
  | unicode a b d e h =>
    obtain ⟨ha, hb, hd, he⟩ := decodeHex_ne h
    have hcr := fun {ch : Char} (hch : hexValue ch ≠ none) =>
      @Through.stringChar doc c m hc stack hs ch (hexValue_ne hch)
    exact (escape hc hs 'u').append ((hcr ha).append ((hcr hb).append
      ((hcr hd).append (hcr he))))

theorem Through.pieces : ∀ pieces : Pieces, Through doc c m (Pieces.render pieces)
      { stack := stack, inString := true } { stack := stack }
  | [] => Through.char hc hs (by simp [Reader.Skip.step])
  | piece :: pieces => by
    rw [Pieces.render_cons]
    exact (Through.piece hc hs piece).append (Through.pieces pieces)

theorem Through.string (pieces : Pieces) :
    Through doc c m ('"' :: Pieces.render pieces) { stack := stack } { stack := stack } :=
  Through.append (a := ['"']) (Through.char hc hs (by simp [Reader.Skip.step]))
    (Through.pieces hc hs pieces)

theorem Through.opening : Through doc c m ['['] { stack := stack } { stack := ']' :: stack } ∧
      Through doc c m ['{'] { stack := stack } { stack := '}' :: stack } :=
  ⟨Through.char hc hs (by simp [Reader.Skip.step]), Through.char hc hs (by simp [Reader.Skip.step])⟩

end

theorem Through.closing (hc : 0 < c) (stack : List Char) :
    Through doc c m [']'] { stack := ']' :: stack } { stack := stack } ∧
      Through doc c m ['}'] { stack := '}' :: stack } { stack := stack } :=
  ⟨Through.char hc (cons_ne_nil _ _) (by simp [Reader.Skip.step]),
    Through.char hc (cons_ne_nil _ _) (by simp [Reader.Skip.step])⟩

theorem Through.token (hc : 0 < c) (hs : stack ≠ []) {ch : Char}
    (hch : ch = ',' ∨ ch = ':') : Through doc c m [ch] { stack := stack } { stack := stack } :=
  Through.plain hc hs (forall_mem_singleton.mpr (by
    rcases hch with rfl | rfl <;> decide))

mutual

theorem Through.tree (hc : 0 < c) : ∀ (tree : Tree) {stack : List Char}, stack ≠ [] →
    Through doc c m tree.render { stack := stack } { stack := stack }
  | .literal word, stack, hs => Through.plain hc hs (by cases word <;>
    simp [Tree.render, Literal.render])
  | .number numeral, stack, hs => by
    refine Through.plain hc hs fun ch hch => ?_
    have hcr := numeral.chars ch hch
    refine ⟨?_, ?_, ?_, ?_, ?_⟩ <;>
    · rintro rfl
      exact absurd hcr (by decide)
  | .string pieces, stack, hs => Through.string hc hs pieces
  | .emptyArray inner, stack, hs =>
    (Through.opening hc hs).1.append ((Through.space hc (cons_ne_nil _ _) inner).append
      (Through.closing hc stack).1)
  | .array inner items, stack, hs =>
    (Through.opening hc hs).1.append ((Through.space hc (cons_ne_nil _ _) inner).append
      (Through.items hc items stack))
  | .emptyObject inner, stack, hs =>
    (Through.opening hc hs).2.append ((Through.space hc (cons_ne_nil _ _) inner).append
      (Through.closing hc stack).2)
  | .object inner members, stack, hs =>
    (Through.opening hc hs).2.append ((Through.space hc (cons_ne_nil _ _) inner).append
      (Through.members hc members stack))

theorem Through.items (hc : 0 < c) : ∀ (items : Items) (stack : List Char),
    Through doc c m items.render { stack := ']' :: stack } { stack := stack }
  | .last item after, stack =>
    (Through.tree hc item (cons_ne_nil _ _)).append
      ((Through.space hc (cons_ne_nil _ _) after).append (Through.closing hc stack).1)
  | .more item after before items, stack =>
    (Through.tree hc item (cons_ne_nil _ _)).append
      ((Through.space hc (cons_ne_nil _ _) after).append
        ((Through.token hc (cons_ne_nil _ _) (.inl rfl)).append
          ((Through.space hc (cons_ne_nil _ _) before).append (Through.items hc items stack))))

theorem Through.members (hc : 0 < c) : ∀ (members : Members) (stack : List Char),
    Through doc c m members.render { stack := '}' :: stack } { stack := stack }
  | .last key afterKey beforeItem item after, stack =>
    (Through.string hc (cons_ne_nil _ _) key).append
      ((Through.space hc (cons_ne_nil _ _) afterKey).append
        ((Through.token hc (cons_ne_nil _ _) (.inr rfl)).append
          ((Through.space hc (cons_ne_nil _ _) beforeItem).append
            ((Through.tree hc item (cons_ne_nil _ _)).append
              ((Through.space hc (cons_ne_nil _ _) after).append (Through.closing hc stack).2)))))
  | .more key afterKey beforeItem item after before members, stack =>
    (Through.string hc (cons_ne_nil _ _) key).append
      ((Through.space hc (cons_ne_nil _ _) afterKey).append
        ((Through.token hc (cons_ne_nil _ _) (.inr rfl)).append
          ((Through.space hc (cons_ne_nil _ _) beforeItem).append
            ((Through.tree hc item (cons_ne_nil _ _)).append
              ((Through.space hc (cons_ne_nil _ _) after).append
                ((Through.token hc (cons_ne_nil _ _) (.inl rfl)).append
                  ((Through.space hc (cons_ne_nil _ _) before).append
                    (Through.members hc members stack))))))))

end

end skip

/-! ## what a walk gets -/

def Tree.isContainer : Tree → Bool
  | .emptyArray _ | .array _ _ | .emptyObject _ | .object _ _ => true
  | _ => false

def Tree.isObject : Tree → Bool
  | .emptyObject _ | .object _ _ => true
  | _ => false

mutual

/-- What the walk gets of the value of `json.loads`. -/
def Tree.outcome : Tree → Walk → Outcome
  | tree, .read => .value tree.value
  | _, .skip => .skipped
  | .object _ members, .members next => .members (members.outcomes next [])
  | _, .members _ => .members []

def Members.outcomes (next : List (PyStr × Outcome) → PyStr → Walk) :
    Members → List (PyStr × Outcome) → List (PyStr × Outcome)
  | .last key _ _ item _, history =>
    history ++ [(key.value, item.outcome (next history key.value))]
  | .more key _ _ item _ _ members, history =>
    members.outcomes next (history ++ [(key.value, item.outcome (next history key.value))])

end

mutual

def Tree.Fits : Tree → Walk → Prop
  | _, .read => True
  | _, .skip => True
  | .object _ members, .members next => members.AllFit next []
  | tree, .members _ => tree.isObject = true

def Members.AllFit (next : List (PyStr × Outcome) → PyStr → Walk) :
    Members → List (PyStr × Outcome) → Prop
  | .last key _ _ item _, history => item.Fits (next history key.value)
  | .more key _ _ item _ _ members, history =>
    item.Fits (next history key.value) ∧
      members.AllFit next (history ++ [(key.value, item.outcome (next history key.value))])

end

def itemOffset (key : Pieces) (afterKey beforeItem : Space) : ℕ :=
  ('"' :: Pieces.render key).length + afterKey.1.length + 1 + beforeItem.1.length

mutual

/-- The values `read_value` decodes, with their offsets: the leaves of the walk. -/
def Tree.leaves : Tree → Walk → ℕ → List (ℕ × Tree)
  | tree, .read, off => [(off, tree)]
  | tree, .skip, off => if tree.isContainer then [] else [(off, tree)]
  | .object inner members, .members next, off =>
    members.leaves next [] (off + 1 + inner.1.length)
  | _, .members _, _ => []

def Members.leaves (next : List (PyStr × Outcome) → PyStr → Walk) :
    Members → List (PyStr × Outcome) → ℕ → List (ℕ × Tree)
  | .last key afterKey beforeItem item _, history, off =>
    (off, .string key) ::
      item.leaves (next history key.value) (off + itemOffset key afterKey beforeItem)
  | .more key afterKey beforeItem item after before members, history, off =>
    (off, .string key) ::
      (item.leaves (next history key.value) (off + itemOffset key afterKey beforeItem) ++
        members.leaves next (history ++ [(key.value, item.outcome (next history key.value))])
          (off + itemOffset key afterKey beforeItem + item.render.length + after.1.length + 1 +
            before.1.length))

end

/-! ## the walk of a value -/

section run

variable {doc : Text} {c m : ℕ}

/-- No chunk boundary cuts a number among the leaves. -/
def AllSafe (c : ℕ) (leaves : List (ℕ × Tree)) : Prop := ∀ leaf ∈ leaves, Safe c leaf.1 leaf.2

instance (c : ℕ) (leaves : List (ℕ × Tree)) : Decidable (AllSafe c leaves) :=
  inferInstanceAs (Decidable (∀ leaf ∈ leaves, Safe c leaf.1 leaf.2))

def AllBounded (m : ℕ) (leaves : List (ℕ × Tree)) : Prop :=
  ∀ leaf ∈ leaves, leaf.2.render.length ≤ m

def Astray (doc : Text) (c m : ℕ) (r : Reader) : Prop :=
  ∃ off ch rest, At doc c m r off ∧ doc.drop off = ch :: rest ∧ isNumberChar ch = true

variable {off : ℕ} {r : Reader} {rest : Text}

theorem At.skipValue (tree : Tree) (h : At doc c m r off)
    (hc : 0 < c) (space : Space) (hdc : doc.drop off = space.1 ++ (tree.render ++ rest))
    (hm : AllBounded m (tree.leaves .skip (off + space.1.length)))
    (hrs : Stops isNumberChar rest) : (AllSafe c (tree.leaves .skip (off + space.1.length)) →
      ∃ r', r.skipValue = .ok r' ∧ At doc c m r' (off + space.1.length + tree.render.length)) ∧
    (¬AllSafe c (tree.leaves .skip (off + space.1.length)) →
      ∃ r', r.skipValue = .ok r' ∧ Astray doc c m r') := by
  obtain ⟨hat, -⟩ := h.skipWhitespace hc space hdc (tree.stops_pySpace rest)
  have hdc' := drop_add_of_append hdc
  obtain ⟨ch, text, hcs⟩ := exists_cons_of_ne_nil (tree.append_ne_nil rest)
  have hdc'' := hdc'
  rw [hcs] at hdc''
  obtain ⟨hpk, hat', -⟩ := hat.peek_cons hc hdc''
  have hpr : r.skipWhitespace.peek = (some ch, r.skipWhitespace.peek.2) := Prod.ext hpk rfl
  -- a container is skipped character by character
  have hcn : ∀ body stack, tree.render = ch :: body → (ch = '[' ∨ ch = '{') →
      stack = (if ch = '{' then '}' else ']') →
      Through doc c m body { stack := [stack] } { stack := [] } →
      ∃ r', r.skipValue = .ok r' ∧ At doc c m r' (off + space.1.length + tree.render.length) := by
    intro body stack hbd hch hst hth
    rw [hbd] at hdc'
    obtain ⟨-, htk⟩ := hat'.take_cons hc hdc'
    obtain ⟨fuel, hfl⟩ : ∃ fuel, r.skipWhitespace.peek.2.left.length + 1 =
        fuel + 1 + body.length := by
      rw [hat'.left_eq, hdc', cons_append, length_cons, length_append]
      exact ⟨rest.length + 1, by omega⟩
    obtain ⟨r', hlp, hen⟩ := hth _ _ _ htk (drop_add_of_append (a := [ch]) hdc')
      (fuel + 1)
    refine ⟨r', ?_, ?_⟩
    · rw [Reader.skipValue, hpr]
      dsimp only
      rw [if_pos hch, hfl, ← hst, hlp]
      rfl
    · rw [hbd, length_cons, Nat.add_comm body.length, ← Nat.add_assoc]
      exact hen
  -- any other value is read
  have hsc : tree.isContainer = false → ¬(ch = '[' ∨ ch = '{') →
      (Safe c (off + space.1.length) tree → ∃ r', r.skipValue = .ok r' ∧
        At doc c m r' (off + space.1.length + tree.render.length)) ∧
      (¬Safe c (off + space.1.length) tree → ∃ r', r.skipValue = .ok r' ∧ Astray doc c m r') := by
    intro hkn hch
    have hbn : tree.render.length ≤ m := by
      refine hm (off + space.1.length, tree) ?_
      cases tree <;> first
        | exact mem_singleton_self _
        | cases hkn
    have hnn : doc.drop (off + space.1.length) = ([] : Text) ++ (tree.render ++ rest) := hdc'
    have hsk : ∀ {other r'}, r.skipWhitespace.peek.2.readValue = .ok (other, r') →
        r.skipValue = .ok r' := by
      intro other r' hrd
      rw [Reader.skipValue, hpr]
      dsimp only
      rw [if_neg hch, hrd]
      rfl
    constructor
    · intro hsf
      obtain ⟨r', hrd, hen⟩ := hat'.readValue hc noSpace hnn hbn (fun _ => hrs) hsf
      exact ⟨r', hsk hrd, hen⟩
    · intro hct
      obtain ⟨other, r', off', ch', rest', hrd, hen⟩ :=
        hat'.readValue_cut hc noSpace hnn hbn hct
      exact ⟨r', hsk hrd, off', ch', rest', hen⟩
  have hhd : ∀ {ch' body}, tree.render = ch' :: body → ch' = ch := by
    intro ch' body hbd
    rw [hbd] at hcs
    exact (List.cons.inj hcs).1
  have hon : ∀ {ch' : Char} {body : Text}, tree.render = ch' :: body → ch' ≠ '[' → ch' ≠ '{' →
      ¬(ch = '[' ∨ ch = '{') := by
    intro ch' body hbd h1 h2
    rw [← hhd hbd]
    exact not_or.mpr ⟨h1, h2⟩
  have hone : AllSafe c [(off + space.1.length, tree)] ↔ Safe c (off + space.1.length) tree :=
    forall_mem_singleton
  cases tree with
  | literal word =>
    obtain ⟨ch', body, hbd, -, -, h1, h2⟩ := literal_cons word
    obtain ⟨hgd, hba⟩ := hsc rfl (hon hbd h1 h2)
    exact ⟨fun hsf => hgd (hone.mp hsf), fun hct => hba fun hsf => hct (hone.mpr hsf)⟩
  | number numeral =>
    obtain ⟨ch', body, hbd, -, -, h1, h2⟩ := numeral.render_cons
    obtain ⟨hgd, hba⟩ := hsc rfl (hon hbd h1 h2)
    exact ⟨fun hsf => hgd (hone.mp hsf), fun hct => hba fun hsf => hct (hone.mpr hsf)⟩
  | string pieces =>
    obtain ⟨hgd, hba⟩ := hsc rfl (hon rfl (by decide) (by decide))
    exact ⟨fun hsf => hgd (hone.mp hsf), fun hct => hba fun hsf => hct (hone.mpr hsf)⟩
  | emptyArray inner =>
    obtain rfl := hhd rfl
    exact ⟨fun _ => hcn _ ']' rfl (.inl rfl) rfl
      ((Through.space hc (cons_ne_nil _ _) inner).append (Through.closing hc []).1),
      fun hct => absurd (fun _ h => absurd h not_mem_nil) hct⟩
  | array inner items =>
    obtain rfl := hhd rfl
    exact ⟨fun _ => hcn _ ']' rfl (.inl rfl) rfl
      ((Through.space hc (cons_ne_nil _ _) inner).append (Through.items hc items [])),
      fun hct => absurd (fun _ h => absurd h not_mem_nil) hct⟩
  | emptyObject inner =>
    obtain rfl := hhd rfl
    exact ⟨fun _ => hcn _ '}' rfl (.inr rfl) rfl
      ((Through.space hc (cons_ne_nil _ _) inner).append (Through.closing hc []).2),
      fun hct => absurd (fun _ h => absurd h not_mem_nil) hct⟩
  | object inner members =>
    obtain rfl := hhd rfl
    exact ⟨fun _ => hcn _ '}' rfl (.inr rfl) rfl
      ((Through.space hc (cons_ne_nil _ _) inner).append (Through.members hc members [])),
      fun hct => absurd (fun _ h => absurd h not_mem_nil) hct⟩

theorem Astray.objectKeys (h : Astray doc c m r) (hc : 0 < c)
    (visit : List (PyStr × Outcome) → PyStr → Reader → Result (Outcome × Reader)) (fuel : ℕ)
    (history : List (PyStr × Outcome)) :
    ∃ e, objectKeys visit (fuel + 1) false history r = .error e := by
  obtain ⟨off, ch, rest, ha, hd, hch⟩ := h
  have hsp := isPySpace_of_isNumberChar hch
  obtain ⟨ha', -⟩ := ha.skipWhitespace hc noSpace hd (stops_cons.mpr hsp)
  obtain ⟨hp, ha'', -⟩ := ha'.peek_cons hc hd
  have hne : ch ≠ '}' ∧ ch ≠ ',' := by
    constructor <;>
    · rintro rfl
      exact absurd hch (by decide)
  obtain ⟨e, he⟩ := ha''.expect_ne hc hd hsp hne.2
  refine ⟨e, ?_⟩
  rw [StreamingJson.objectKeys, if_neg (by rw [hp]; simpa using hne.1)]
  simp only [Bool.false_eq_true, if_false]
  rw [he]
  rfl

/-- `object_keys` at the closing brace. -/
theorem At.objectKeys_end (h : At doc c m r off) (hc : 0 < c)
    (space : Space) (hd : doc.drop off = space.1 ++ '}' :: rest)
    (visit : List (PyStr × Outcome) → PyStr → Reader → Result (Outcome × Reader)) (fuel : ℕ)
    (first : Bool) (history : List (PyStr × Outcome)) :
    ∃ r', objectKeys visit (fuel + 1) first history r = .ok (history, r') ∧
      At doc c m r' (off + space.1.length + 1) := by
  obtain ⟨ha, -⟩ := h.skipWhitespace hc space hd (stops_cons.mpr (by decide))
  have hd' := drop_add_of_append hd
  obtain ⟨hp, ha', -⟩ := ha.peek_cons hc hd'
  obtain ⟨-, he⟩ := ha'.take_cons hc hd'
  refine ⟨_, ?_, he⟩
  rw [objectKeys, if_pos hp]

theorem At.objectKeys_comma (h : At doc c m r off) (hc : 0 < c)
    (space : Space) (hd : doc.drop off = space.1 ++ ',' :: rest)
    (visit : List (PyStr × Outcome) → PyStr → Reader → Result (Outcome × Reader)) (fuel : ℕ)
    (history : List (PyStr × Outcome)) :
    ∃ r', At doc c m r' (off + space.1.length + 1) ∧ objectKeys visit (fuel + 1) false history r =
        (objectMember visit history r').bind fun res =>
          objectKeys visit fuel false res.1 res.2 := by
  obtain ⟨ha, -⟩ := h.skipWhitespace hc space hd (stops_cons.mpr (by decide))
  have hd' := drop_add_of_append hd
  obtain ⟨hp, ha', -⟩ := ha.peek_cons hc hd'
  obtain ⟨r', he, hen⟩ := ha'.expect hc noSpace hd' (by decide)
  refine ⟨r', hen, ?_⟩
  rw [objectKeys, if_neg (by rw [hp]; decide)]
  simp only [Bool.false_eq_true, if_false]
  rw [he]
  rfl

structure Runs (doc : Text) (c m : ℕ) (x : Result (Outcome × Reader)) (outcome : Outcome)
    (leaves : List (ℕ × Tree)) (off : ℕ) : Prop where
  ok : AllSafe c leaves → ∃ r', x = .ok (outcome, r') ∧ At doc c m r' off
  cut : ¬AllSafe c leaves →
    (∃ e, x = .error e) ∨ ∃ outcome' r', x = .ok (outcome', r') ∧ Astray doc c m r'

structure RunsMembers (doc : Text) (c m : ℕ)
    (x : Result (List (PyStr × Outcome) × Reader)) (outcomes : List (PyStr × Outcome))
    (leaves : List (ℕ × Tree)) (off : ℕ) : Prop where
  ok : AllSafe c leaves → ∃ r', x = .ok (outcomes, r') ∧ At doc c m r' off
  cut : ¬AllSafe c leaves → ∃ e, x = .error e

theorem allSafe_cons {leaf : ℕ × Tree} {leaves : List (ℕ × Tree)} :
    AllSafe c (leaf :: leaves) ↔ Safe c leaf.1 leaf.2 ∧ AllSafe c leaves :=
  forall_mem_cons

theorem allSafe_append {a b : List (ℕ × Tree)} : AllSafe c (a ++ b) ↔ AllSafe c a ∧ AllSafe c b :=
  forall_mem_append

theorem At.objectMember {space : Space} {key : Pieces}
    {afterKey beforeItem : Space} {item : Tree} (h : At doc c m r off) (hc : 0 < c)
    (hd : doc.drop off = space.1 ++ ('"' :: Pieces.render key ++ (afterKey.1 ++ ':' ::
      (beforeItem.1 ++ (item.render ++ rest))))) (hm : (Tree.string key).render.length ≤ m)
    (visit : List (PyStr × Outcome) → PyStr → Reader → Result (Outcome × Reader))
    (history : List (PyStr × Outcome)) : ∃ r' off', At doc c m r' off' ∧
      off' + beforeItem.1.length = off + space.1.length + itemOffset key afterKey beforeItem ∧
      doc.drop off' = beforeItem.1 ++ (item.render ++ rest) ∧
      objectMember visit history r = (visit history key.value r').bind fun outcome =>
        .ok (history ++ [(key.value, outcome.1)], outcome.2) := by
  obtain ⟨r₁, hr, h₁⟩ := @At.readValue doc c m r off (.string key) _ h hc space hd hm
    (fun hn => by cases hn) trivial
  have hd₁ := drop_add_of_append (drop_add_of_append hd)
  obtain ⟨r₂, he, h₂⟩ := h₁.expect hc afterKey hd₁ (by decide)
  have hd₂ := drop_add_of_append (a := [':']) (drop_add_of_append hd₁)
  refine ⟨r₂, _, h₂, ?_, hd₂, ?_⟩
  · rw [itemOffset, Tree.render]
    omega
  · rw [StreamingJson.objectMember, hr]
    show (r₁.expect ':' >>= _) = _
    rw [he]
    rfl

mutual

theorem run_tree (hc : 0 < c) : ∀ (tree : Tree) (walk : Walk) {r : Reader} {off : ℕ}
    (space : Space) {rest : Text}, At doc c m r off →
      doc.drop off = space.1 ++ (tree.render ++ rest) → Stops isNumberChar rest →
      tree.Fits walk → AllBounded m (tree.leaves walk (off + space.1.length)) →
        Runs doc c m (walk.run r) (tree.outcome walk)
          (tree.leaves walk (off + space.1.length)) (off + space.1.length + tree.render.length)
  | tree, .read, r, off, space, rest, h, hdc, hrs, _, hm => by
    have hm' : tree.render.length ≤ m := by
      refine hm (off + space.1.length, tree) ?_
      rw [Tree.leaves]
      exact mem_singleton_self _
    have hon : AllSafe c (tree.leaves .read (off + space.1.length)) ↔
        Safe c (off + space.1.length) tree := by
      rw [Tree.leaves]
      exact forall_mem_singleton
    constructor
    · intro hsf
      obtain ⟨r', hrd, hen⟩ := h.readValue hc space hdc hm' (fun _ => hrs) (hon.mp hsf)
      refine ⟨r', ?_, hen⟩
      rw [Walk.run, hrd, Tree.outcome]
      rfl
    · intro hct
      obtain ⟨other, r', off', ch, rest', hrd, hen⟩ :=
        h.readValue_cut hc space hdc hm' fun hsf => hct (hon.mpr hsf)
      refine .inr ⟨.value other.value, r', ?_, off', ch, rest', hen⟩
      rw [Walk.run, hrd]
      rfl
  | tree, .skip, r, off, space, rest, h, hdc, hrs, _, hm => by
    obtain ⟨hgd, hbd⟩ := h.skipValue tree hc space hdc hm hrs
    constructor
    · intro hsf
      obtain ⟨r', hsk, hen⟩ := hgd hsf
      refine ⟨r', ?_, hen⟩
      rw [Walk.run, hsk, Tree.outcome]
      rfl
    · intro hct
      obtain ⟨r', hsk, hen⟩ := hbd hct
      refine .inr ⟨.skipped, r', ?_, hen⟩
      rw [Walk.run, hsk]
      rfl
  | .emptyObject inner, .members next, r, off, space, rest, h, hdc, _, _, _ => by
    rw [Tree.render, cons_append, append_assoc] at hdc
    obtain ⟨r₁, hex, h₁⟩ := h.expect hc space hdc (by decide)
    have hdc₁ := drop_add_of_append (a := ['{']) (drop_add_of_append hdc)
    obtain ⟨r₂, hky, h₂⟩ := h₁.objectKeys_end hc inner hdc₁
      (fun members key => (next members key).run) r₁.left.length true []
    constructor
    · intro _
      refine ⟨r₂, ?_, ?_⟩
      · rw [Walk.run, hex]
        show (objectKeys _ _ _ _ _ >>= _) = _
        rw [hky]
        rfl
      · rw [Tree.render, length_cons, length_append, length_singleton]
        convert h₂ using 1
        omega
    · intro hct
      have hnn : (Tree.emptyObject inner).leaves (.members next) (off + space.1.length) = [] := rfl
      exact absurd (hnn ▸ fun _ h => absurd h not_mem_nil) hct
  | .object inner members, .members next, r, off, space, rest, h, hdc, hrs, hft, hm => by
    rw [Tree.render, cons_append, append_assoc] at hdc
    obtain ⟨r₁, hex, h₁⟩ := h.expect hc space hdc (by decide)
    have hdc₁ : doc.drop (off + space.1.length + 1) = inner.1 ++ (members.render ++ rest) :=
      drop_add_of_append (a := ['{']) (drop_add_of_append hdc)
    obtain ⟨text, hqt⟩ := members.render_cons
    obtain ⟨h₂, -⟩ := h₁.skipWhitespace hc inner hdc₁ (by
      rw [hqt]
      exact stops_cons.mpr (by decide))
    have hdc₂ := drop_add_of_append hdc₁
    have hpk : r₁.skipWhitespace.peek.1 = some '"' ∧
        At doc c m r₁.skipWhitespace.peek.2 (off + space.1.length + 1 + inner.1.length) := by
      have hcn := hdc₂
      rw [hqt, cons_append] at hcn
      obtain ⟨hpk, hat, -⟩ := h₂.peek_cons hc hcn
      exact ⟨hpk, hat⟩
    have hfl : members.render.length ≤ r₁.left.length := by
      rw [h₁.left_eq, hdc₁, length_append, length_append]
      omega
    rw [Tree.leaves] at hm ⊢
    have hmm := run_members hc next members [] noSpace hpk.2 hdc₂ hfl hft hm
    have hrn : (Walk.members next).run r =
        ((objectMember (fun members key => (next members key).run) []
          r₁.skipWhitespace.peek.2).bind fun res =>
            objectKeys (fun members key => (next members key).run) r₁.left.length false
              res.1 res.2).bind fun res => .ok (.members res.1, res.2) := by
      rw [Walk.run, hex]
      show (objectKeys _ (r₁.left.length + 1) true [] r₁ >>= _) = _
      rw [objectKeys, if_neg (by rw [hpk.1]; decide)]
      rfl
    constructor
    · intro hsf
      obtain ⟨r', hok, hen⟩ := hmm.ok hsf
      refine ⟨r', ?_, ?_⟩
      · rw [hrn, hok, Tree.outcome]
        rfl
      · rw [Tree.render, length_cons, length_append]
        convert hen using 1
        show _ = off + space.1.length + 1 + inner.1.length + 0 + members.render.length
        omega
    · intro hct
      obtain ⟨e, her⟩ := hmm.cut hct
      refine .inl ⟨e, ?_⟩
      rw [hrn, her]
      rfl
  | .literal word, .members next, r, off, space, rest, h, hdc, _, hft, _ => by cases hft
  | .number numeral, .members next, r, off, space, rest, h, hdc, _, hft, _ => by cases hft
  | .string pieces, .members next, r, off, space, rest, h, hdc, _, hft, _ => by cases hft
  | .emptyArray inner, .members next, r, off, space, rest, h, hdc, _, hft, _ => by cases hft
  | .array inner items, .members next, r, off, space, rest, h, hdc, _, hft, _ => by cases hft

theorem run_members (hc : 0 < c) (next : List (PyStr × Outcome) → PyStr → Walk) :
    ∀ (members : Members) (history : List (PyStr × Outcome)) {r : Reader} {off : ℕ} (space : Space)
      {rest : Text} {fuel : ℕ}, At doc c m r off →
        doc.drop off = space.1 ++ (members.render ++ rest) → members.render.length ≤ fuel →
        members.AllFit next history →
        AllBounded m (members.leaves next history (off + space.1.length)) → RunsMembers doc c m
            ((objectMember (fun members key => (next members key).run) history r).bind fun res =>
              objectKeys (fun members key => (next members key).run) fuel false res.1 res.2)
            (members.outcomes next history) (members.leaves next history (off + space.1.length))
            (off + space.1.length + members.render.length)
  | .last key afterKey beforeItem item after, history, r, off, space, rest, fuel, h, hdc, hfl,
      hft, hm => by
    rw [Members.render] at hdc hfl
    simp only [cons_append, append_assoc, nil_append, length_cons,
      length_append, length_nil] at hdc hfl
    rw [Members.leaves] at hm ⊢
    obtain ⟨hke, hit⟩ := forall_mem_cons.mp hm
    obtain ⟨r₁, off₁, h₁, hof₁, hdc₁, hmm⟩ := h.objectMember hc hdc hke
      (fun members key => (next members key).run) history
    rw [← hof₁] at hit ⊢
    have hrn := run_tree hc item (next history key.value) beforeItem h₁ hdc₁
      (Space.stops_number after (by decide) rest) hft hit
    obtain ⟨fuel, rfl⟩ : ∃ j, fuel = j + 1 := ⟨fuel - 1, by omega⟩
    rw [hmm]
    constructor
    · intro hsf
      obtain ⟨r₂, hok, h₂⟩ := hrn.ok (allSafe_cons.mp hsf).2
      obtain ⟨r₃, hky, h₃⟩ := h₂.objectKeys_end hc after
        (drop_add_of_append (drop_add_of_append hdc₁))
        (fun members key => (next members key).run) fuel false
        (history ++ [(key.value, item.outcome (next history key.value))])
      refine ⟨r₃, ?_, ?_⟩
      · rw [hok]
        show objectKeys _ _ _ _ _ = _
        rw [hky, Members.outcomes]
      · convert h₃ using 1
        rw [hof₁, itemOffset, Members.render]
        simp only [length_cons, length_append, length_nil]
        omega
    · intro hct
      rcases hrn.cut fun hsf => hct (allSafe_cons.mpr ⟨trivial, hsf⟩) with
        ⟨e, her⟩ | ⟨outcome, r₂, hok, has⟩
      · exact ⟨e, by rw [her]; rfl⟩
      · obtain ⟨e, hky⟩ := has.objectKeys hc (fun members key => (next members key).run) fuel
          (history ++ [(key.value, outcome)])
        exact ⟨e, by rw [hok]; exact hky⟩
  | .more key afterKey beforeItem item after before members, history, r, off, space, rest, fuel, h,
      hdc, hfl, hft, hm => by
    rw [Members.render] at hdc hfl
    simp only [cons_append, append_assoc, length_cons, length_append] at hdc hfl
    rw [Members.leaves] at hm ⊢
    obtain ⟨hke, hm⟩ := forall_mem_cons.mp hm
    obtain ⟨hit, hot⟩ := forall_mem_append.mp hm
    obtain ⟨r₁, off₁, h₁, hof₁, hdc₁, hmm⟩ := h.objectMember hc hdc hke
      (fun members key => (next members key).run) history
    rw [← hof₁] at hit hot ⊢
    have hrn := run_tree hc item (next history key.value) beforeItem h₁ hdc₁
      (Space.stops_number after (by decide) _) hft.1 hit
    obtain ⟨fuel, rfl⟩ : ∃ j, fuel = j + 1 := ⟨fuel - 1, by omega⟩
    have hdc₂ := drop_add_of_append (drop_add_of_append hdc₁)
    have hdc₃ := drop_add_of_append (a := [',']) (drop_add_of_append hdc₂)
    rw [hmm]
    -- the members behind the comma, where the reader comes to them
    have hnx : ∀ r₂, At doc c m r₂ (off₁ + beforeItem.1.length + item.render.length) →
        RunsMembers doc c m (objectKeys (fun members key => (next members key).run) (fuel + 1) false
            (history ++ [(key.value, item.outcome (next history key.value))]) r₂)
          (members.outcomes next (history ++ [(key.value, item.outcome (next history key.value))]))
          (members.leaves next (history ++ [(key.value, item.outcome (next history key.value))])
            (off₁ + beforeItem.1.length + item.render.length + after.1.length + 1 +
              before.1.length))
          (off₁ + beforeItem.1.length + item.render.length + after.1.length + 1 +
              before.1.length + members.render.length) := by
      intro r₂ h₂
      obtain ⟨r₃, h₃, hky⟩ := h₂.objectKeys_comma hc after hdc₂
        (fun members key => (next members key).run) fuel
        (history ++ [(key.value, item.outcome (next history key.value))])
      rw [hky]
      exact run_members hc next members _ before h₃ hdc₃ (by omega) hft.2 hot
    constructor
    · intro hsf
      obtain ⟨-, hsf⟩ := allSafe_cons.mp hsf
      obtain ⟨hsf, hsf'⟩ := allSafe_append.mp hsf
      obtain ⟨r₂, hok, h₂⟩ := hrn.ok hsf
      obtain ⟨r₃, hky, h₃⟩ := (hnx r₂ h₂).ok hsf'
      refine ⟨r₃, ?_, ?_⟩
      · rw [hok, Members.outcomes]
        exact hky
      · convert h₃ using 1
        rw [hof₁, itemOffset, Members.render]
        simp only [length_cons, length_append]
        omega
    · intro hct
      by_cases hsf : AllSafe c (item.leaves (next history key.value) (off₁ + beforeItem.1.length))
      · obtain ⟨r₂, hok, h₂⟩ := hrn.ok hsf
        obtain ⟨e, hky⟩ := (hnx r₂ h₂).cut fun hsf' =>
          hct (allSafe_cons.mpr ⟨trivial, allSafe_append.mpr ⟨hsf, hsf'⟩⟩)
        exact ⟨e, by rw [hok]; exact hky⟩
      · rcases hrn.cut hsf with ⟨e, her⟩ | ⟨outcome, r₂, hok, has⟩
        · exact ⟨e, by rw [her]; rfl⟩
        · obtain ⟨e, hky⟩ := has.objectKeys hc (fun members key => (next members key).run)
            fuel (history ++ [(key.value, outcome)])
          exact ⟨e, by rw [hok]; exact hky⟩

end

end run

def Document.leaves (document : Document) (walk : Walk) : List (ℕ × Tree) :=
  document.tree.leaves walk document.before.1.length

/-- **A walk over a document gets what `json.loads` gives exactly when no chunk boundary cuts the
digits of a number that it reads or skips by itself.** -/
theorem stream_eq_ok_iff {text : Text} {document : Document} (hloads : loads text = some document)
    {walk : Walk} (hfits : document.tree.Fits walk)
    {chunkSize maxLeafChars : ℕ} (hchunk : 1 ≤ chunkSize) (hmax : 0 < maxLeafChars)
    (hbelow : ∀ leaf ∈ document.leaves walk, leaf.2.render.length < maxLeafChars) :
    walk.stream text chunkSize maxLeafChars = .ok (document.tree.outcome walk) ↔
      AllSafe chunkSize (document.leaves walk) := by
  have htext := loads_sound hloads
  let start : Reader :=
    { stream := text, chunkSize := chunkSize, maxLeafChars := maxLeafChars, buffer := []
      position := 0, eof := false }
  have hinit : Reader.init text chunkSize maxLeafChars = .ok start := by
    rw [Reader.init, raiseIf_bind]
    exact ⟨by omega, raiseIf_bind.mpr ⟨by omega, rfl⟩⟩
  have hstart : At text chunkSize maxLeafChars start 0 :=
    { chunk := rfl, bound := rfl, left_eq := rfl, off_le := Nat.zero_le _
      position_le := Nat.zero_le _
      aligned := .inr (by rw [Nat.sub_self]; exact Nat.dvd_zero _)
      near := by
        rw [Nat.sub_self]
        exact Nat.zero_le _
      eof := fun h => by cases h }
  have hdoc : text.drop 0 = document.before.1 ++ (document.tree.render ++ document.after.1) := htext
  have hafter : Stops isNumberChar document.after.1 := by
    intro ch rest hcons
    have hspace := document.after.2 ch (hcons ▸ mem_cons_self)
    simp only [isJsonSpace, Bool.or_eq_true, decide_eq_true_eq] at hspace
    rcases hspace with ((rfl | rfl) | rfl) | rfl <;> rfl
  have hrun := run_tree (m := maxLeafChars) hchunk document.tree walk document.before hstart hdoc
    hafter hfits (by
      intro leaf hleaf
      rw [Nat.zero_add] at hleaf
      exact (hbelow leaf hleaf).le)
  rw [Nat.zero_add] at hrun
  have hstream : walk.stream text chunkSize maxLeafChars =
      (walk.run start).bind fun result => result.2.finish.bind fun _ => .ok result.1 := by
    rw [Walk.stream, hinit]
    rfl
  rw [hstream]
  constructor
  · intro hok
    by_contra hcut
    obtain ⟨result, hresult, hok⟩ := bind_eq_ok.mp hok
    obtain ⟨⟨⟩, hfinish, -⟩ := bind_eq_ok.mp hok
    rcases hrun.cut hcut with ⟨e, herror⟩ | ⟨outcome, r', hok', off, ch, rest, hat, hrest, hch⟩
    · rw [herror] at hresult
      cases hresult
    · -- behind the document there is nothing but white space
      rw [hok'] at hresult
      cases hresult
      have hspace := isPySpace_of_isNumberChar hch
      obtain ⟨hat', -⟩ := hat.skipWhitespace hchunk noSpace hrest (stops_cons.mpr hspace)
      obtain ⟨hpeek, -⟩ := hat'.peek_cons hchunk hrest
      rw [Reader.finish, raiseIf_eq_ok, hpeek] at hfinish
      exact hfinish (by simp)
  · intro hsafe
    obtain ⟨r', hok, hend⟩ := hrun.ok hsafe
    have hlast : text.drop (document.before.1.length + document.tree.render.length) =
        document.after.1 ++ [] := by
      rw [append_nil]
      have hdrop := drop_add_of_append (drop_add_of_append hdoc)
      rwa [Nat.zero_add] at hdrop
    obtain ⟨hat, -⟩ := hend.skipWhitespace hchunk document.after hlast .nil
    obtain ⟨hpeek, -⟩ := hat.peek_none (drop_add_of_append hlast)
    have hfinish : r'.finish = .ok () := by
      rw [Reader.finish, raiseIf_eq_ok, hpeek]
      simp
    rw [hok]
    show (r'.finish.bind _) = _
    rw [hfinish]
    rfl

/-! ### a number at a chunk boundary -/

def readAll : Walk := .members fun _ _ => .read

/-- `{"a":12}` -/
def twelveText : Text := ['{', '"', 'a', '"', ':', '1', '2', '}']

def twelve : Document where
  before := noSpace
  tree := .object noSpace (.last [.plain 'a' (by decide)] noSpace noSpace
    (.number ⟨['1', '2'], by decide⟩) noSpace)
  after := noSpace

theorem loads_twelveText : loads twelveText = some twelve := rfl

/-- With chunks of seven characters the number comes in one piece. -/
theorem stream_twelve : readAll.stream twelveText 7 65536 = .ok (twelve.tree.outcome readAll) :=
  (stream_eq_ok_iff loads_twelveText (show twelve.tree.Fits readAll from trivial) (by decide)
    (by decide) (by decide)).mpr (by decide)

/-- With chunks of six the reader takes `1` for the value and stumbles over the `2`. -/
theorem stream_twelve_cut :
    ¬ readAll.stream twelveText 6 65536 = .ok (twelve.tree.outcome readAll) := by
  intro h
  have hok : (readAll.stream twelveText 6 65536).toOption.isSome = true := by
    rw [h]
    rfl
  exact absurd hok (by decide +kernel)

end EmuFlow.StreamingJson
