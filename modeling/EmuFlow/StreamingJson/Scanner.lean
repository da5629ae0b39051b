import EmuFlow.StreamingJson.Numbers

/-!
# Streaming JSON: the scanner

Python's `JSONDecoder.raw_decode`, by the trees of the texts it accepts. The fuel bounds the calls;
the length of the text is enough.
-/

namespace EmuFlow.StreamingJson

open List Option
open StreamingJson.Tree

def skipSpace (text : Text) : Space × Text :=
  (⟨text.takeWhile isJsonSpace, mem_takeWhile⟩, text.dropWhile isJsonSpace)

def literals : List Literal := [.null, .true, .false, .nan, .infinity, .negativeInfinity]

def scanLiteral (text : Text) : Option (Literal × Text) :=
  (literals.find? fun word => word.render.isPrefixOf text).map fun word =>
    (word, text.drop word.render.length)

def scanNumeral (text : Text) : Option (Numeral × Text) :=
  match h : scanNumber text with
  | none => none
  | some part =>
    some (⟨part.1, by
      have hself := (scanNumber_cases h).2.2.2 [] .nil
      rwa [append_nil] at hself⟩, part.2)

def scanUnicode : Text → Option (Piece × Text)
  | a :: b :: c :: d :: text =>
    if h : (decodeHex a b c d).isSome = true then some (.unicode a b c d h, text) else none
  | _ => none

def scanEscape : Text → Option (Piece × Text)
  | [] => none
  | c :: text =>
    if c = 'u' then scanUnicode text
    else if h : (backslash c).isSome = true then some (.escaped c h, text)
    else none

def scanPiece : Text → Option (Piece × Text)
  | [] => none
  | c :: text =>
    if c = '\\' then scanEscape text
    else if h : c ≠ '"' ∧ c ≠ '\\' ∧ 32 ≤ c.toNat then some (.plain c h, text)
    else none

def scanPieces : ℕ → Text → Option (Pieces × Text)
  | 0, _ => none
  | _ + 1, [] => none
  | fuel + 1, c :: text =>
    if c = '"' then some ([], text)
    else
      (scanPiece (c :: text)).bind fun piece =>
        (scanPieces fuel piece.2).map fun rest => (piece.1 :: rest.1, rest.2)

def scanString (text : Text) : Option (Pieces × Text) := scanPieces text.length text

/-! ## `scan_once` -/

mutual

def scanOnce : ℕ → Text → Option (Tree × Text)
  | 0, _ => none
  | _ + 1, [] => none
  | fuel + 1, c :: text =>
    if c = '"' then (scanString text).map fun part => (.string part.1, part.2)
    else if c = '[' then
      let inner := skipSpace text
      if inner.2.head? = some ']' then some (.emptyArray inner.1, inner.2.tail)
      else (scanItems fuel inner.2).map fun part => (.array inner.1 part.1, part.2)
    else if c = '{' then
      let inner := skipSpace text
      if inner.2.head? = some '}' then some (.emptyObject inner.1, inner.2.tail)
      else (scanMembers fuel inner.2).map fun part => (.object inner.1 part.1, part.2)
    else
      match scanLiteral (c :: text) with
      | some part => some (.literal part.1, part.2)
      | none => (scanNumeral (c :: text)).map fun part => (.number part.1, part.2)

def scanItems : ℕ → Text → Option (Items × Text)
  | 0, _ => none
  | fuel + 1, text =>
    (scanOnce fuel text).bind fun item =>
      let after := skipSpace item.2
      if after.2.head? = some ']' then some (.last item.1 after.1, after.2.tail)
      else if after.2.head? = some ',' then
        let before := skipSpace after.2.tail
        (scanItems fuel before.2).map fun part => (.more item.1 after.1 before.1 part.1, part.2)
      else none

def scanMembers : ℕ → Text → Option (Members × Text)
  | 0, _ => none
  | _ + 1, [] => none
  | fuel + 1, quote :: text =>
    if quote = '"' then
      (scanString text).bind fun key =>
        let afterKey := skipSpace key.2
        if afterKey.2.head? = some ':' then
          let beforeItem := skipSpace afterKey.2.tail
          (scanOnce fuel beforeItem.2).bind fun item =>
            let after := skipSpace item.2
            if after.2.head? = some '}' then
              some (.last key.1 afterKey.1 beforeItem.1 item.1 after.1, after.2.tail)
            else if after.2.head? = some ',' then
              let before := skipSpace after.2.tail
              (scanMembers fuel before.2).map fun part =>
                (.more key.1 afterKey.1 beforeItem.1 item.1 after.1 before.1 part.1, part.2)
            else none
        else none
    else none

end

def rawDecode (text : Text) : Option (Tree × Text) := scanOnce text.length text

structure Document where
  before : Space
  tree : Tree
  after : Space

def Document.render (document : Document) : Text :=
  document.before.1 ++ (document.tree.render ++ document.after.1)

/-- `json.loads` -/
def loads (text : Text) : Option Document :=
  (rawDecode (skipSpace text).2).bind fun part =>
    if h : part.2.all isJsonSpace = true then
      some { before := (skipSpace text).1, tree := part.1, after := ⟨part.2, all_eq_true.mp h⟩ }
    else none

/-! ## white space, literals and strings -/

theorem skipSpace_self (text : Text) : text = (skipSpace text).1.1 ++ (skipSpace text).2 :=
  takeWhile_append_dropWhile.symm

theorem skipSpace_append (space : Space) {r : Text} (hr : Stops isJsonSpace r) :
    skipSpace (space.1 ++ r) = (space, r) := by
  have hs : (space.1 ++ r).takeWhile isJsonSpace = space.1 := takeWhile_append_stops space.2 hr
  exact Prod.ext (Subtype.ext hs) (dropWhile_append_stops space.2 hr)

variable {text r : Text}

theorem scanLiteral_sound {word : Literal} (h : scanLiteral text = some (word, r)) :
    text = word.render ++ r := by
  obtain ⟨word', hf, hpr⟩ := map_eq_some_iff.mp h
  cases hpr
  have hp := List.find?_some hf
  obtain ⟨rest, rfl⟩ := isPrefixOf_iff_prefix.mp hp
  rw [drop_left]

theorem scanLiteral_append (word : Literal) (r : Text) :
    scanLiteral (word.render ++ r) = some (word, r) := by
  cases word <;> simp [scanLiteral, literals, Literal.render, List.find?, isPrefixOf]

theorem scanLiteral_numeral (numeral : Numeral) (r : Text) :
    scanLiteral (numeral.1 ++ r) = none := by
  cases hw : scanLiteral (numeral.1 ++ r) with
  | none => rfl
  | some part =>
    have hs := scanLiteral_sound hw
    obtain ⟨d, rest, hd, ⟨ht, -⟩ | ⟨ht, -⟩⟩ := numeral.digits
    · rw [ht] at hs
      cases hp : part.1 <;> rw [hp] at hs <;>
        simp only [Literal.render, cons_append, List.cons.injEq] at hs
      all_goals try exact absurd hs.1 (by decide)
      rw [hs.2.1] at hd
      exact absurd hd (by decide)
    · rw [ht] at hs
      cases hp : part.1 <;> rw [hp] at hs <;>
        simp only [Literal.render, cons_append, List.cons.injEq] at hs <;>
        rw [hs.1] at hd <;> exact absurd hd (by decide)

theorem scanNumeral_eq (numeral : Numeral)
    (h : scanNumber text = some (numeral.1, r)) : scanNumeral text = some (numeral, r) := by
  unfold scanNumeral
  split
  · next hn =>
    rw [hn] at h
    cases h
  · next part hp =>
    rw [hp] at h
    cases h
    rfl

theorem scanNumeral_sound {numeral : Numeral}
    (h : scanNumeral text = some (numeral, r)) : text = numeral.1 ++ r := by
  unfold scanNumeral at h
  split at h
  · cases h
  · next part hp =>
    cases h
    exact (scanNumber_cases hp).1

theorem scanPiece_sound {piece : Piece} (h : scanPiece text = some (piece, r)) :
    text = piece.render ++ r := by
  cases text with
  | nil => cases h
  | cons c text =>
    rw [scanPiece] at h
    split_ifs at h with hb hp
    · rw [hb]
      cases text with
      | nil => cases h
      | cons e text =>
        rw [scanEscape] at h
        split_ifs at h with hu he
        · rw [hu]
          match text, h with
          | a :: b :: c :: d :: text, h =>
            rw [scanUnicode] at h
            split_ifs at h
            cases h
            rfl
        · cases h
          rfl
    · cases h
      rfl

theorem scanPiece_append (piece : Piece) (r : Text) :
    scanPiece (piece.render ++ r) = some (piece, r) := by
  cases piece with
  | plain c h =>
    show scanPiece (c :: r) = _
    rw [scanPiece, if_neg h.2.1, dif_pos h]
  | escaped c h =>
    have hu : ¬c = 'u' := by
      rintro rfl
      exact absurd h (by decide)
    show scanPiece ('\\' :: c :: r) = _
    rw [scanPiece, if_pos rfl, scanEscape, if_neg hu, dif_pos h]
  | unicode a b c d h =>
    show scanPiece ('\\' :: 'u' :: a :: b :: c :: d :: r) = _
    rw [scanPiece, if_pos rfl, scanEscape, if_pos rfl, scanUnicode, dif_pos h]

theorem Piece.render_cons (piece : Piece) : ∃ c rest, piece.render = c :: rest ∧ c ≠ '"' := by
  cases piece with
  | plain c h => exact ⟨c, [], rfl, h.1⟩
  | escaped c h => exact ⟨'\\', [c], rfl, by decide⟩
  | unicode a b c d h => exact ⟨'\\', ['u', a, b, c, d], rfl, by decide⟩

theorem Pieces.render_cons (piece : Piece) (pieces : Pieces) :
    Pieces.render (piece :: pieces) = piece.render ++ Pieces.render pieces := by
  simp [Pieces.render]

theorem scanPieces_sound {fuel : ℕ} : ∀ {text r : Text} {pieces : Pieces},
    scanPieces fuel text = some (pieces, r) → text = Pieces.render pieces ++ r := by
  induction fuel with
  | zero => exact fun h => by cases h
  | succ fuel ih =>
    intro text r pieces h
    cases text with
    | nil => cases h
    | cons c text =>
      rw [scanPieces] at h
      split_ifs at h with hq
      · cases h
        rw [hq]
        rfl
      · obtain ⟨piece, hp, h⟩ := bind_eq_some_iff.mp h
        obtain ⟨rest, hr, hpr⟩ := map_eq_some_iff.mp h
        cases hpr
        rw [scanPiece_sound hp, Pieces.render_cons, append_assoc, ← ih hr]

theorem scanPieces_render (r : Text) : ∀ (pieces : Pieces) {fuel : ℕ},
    (Pieces.render pieces).length ≤ fuel →
      scanPieces fuel (Pieces.render pieces ++ r) = some (pieces, r)
  | [], fuel, h => by
    obtain ⟨fuel, rfl⟩ : ∃ j, fuel = j + 1 := ⟨fuel - 1, by simp [Pieces.render] at h; omega⟩
    show scanPieces (fuel + 1) ('"' :: r) = _
    rw [scanPieces, if_pos rfl]
  | piece :: pieces, fuel, h => by
    obtain ⟨c, rest, hc, hq⟩ := piece.render_cons
    rw [Pieces.render_cons, length_append, hc, length_cons] at h
    obtain ⟨fuel, rfl⟩ : ∃ j, fuel = j + 1 := ⟨fuel - 1, by omega⟩
    have hp := scanPiece_append piece (Pieces.render pieces ++ r)
    rw [Pieces.render_cons, append_assoc]
    rw [hc, cons_append] at hp ⊢
    rw [scanPieces, if_neg hq, hp, bind_some, scanPieces_render r pieces (by omega)]
    rfl

theorem scanString_sound {pieces : Pieces}
    (h : scanString text = some (pieces, r)) : text = Pieces.render pieces ++ r :=
  scanPieces_sound h

theorem scanString_render (pieces : Pieces) (r : Text) :
    scanString (Pieces.render pieces ++ r) = some (pieces, r) :=
  scanPieces_render r pieces (by rw [length_append]; omega)

theorem eq_cons_of_head? {text : Text} {c : Char} (h : text.head? = some c) :
    text = c :: text.tail := by
  cases text with
  | nil => cases h
  | cons d text => rw [some.inj h]; rfl

theorem scan_sound (fuel : ℕ) :
    (∀ {text r : Text} {tree : Tree}, scanOnce fuel text = some (tree, r) →
      text = tree.render ++ r) ∧
    (∀ {text r : Text} {items : Items}, scanItems fuel text = some (items, r) →
      text = items.render ++ r) ∧
    ∀ {text r : Text} {members : Members}, scanMembers fuel text = some (members, r) →
      text = members.render ++ r := by
  induction fuel with
  | zero => exact ⟨fun h => (by cases h), fun h => (by cases h), fun h => (by cases h)⟩
  | succ fuel ih =>
    obtain ⟨ihonce, ihitems, ihmembers⟩ := ih
    refine ⟨?_, ?_, ?_⟩
    · intro text r tree h
      cases text with
      | nil => cases h
      | cons c text =>
        rw [scanOnce] at h
        dsimp only at h
        have hs := skipSpace_self text
        split_ifs at h with hq ho hc hbr hc
        · obtain ⟨part, hp, hpr⟩ := map_eq_some_iff.mp h
          cases hpr
          rw [scanString_sound hp, hq]
          rfl
        · cases h
          rw [ho]
          conv => lhs; rw [hs, eq_cons_of_head? hc]
          simp [render]
        · obtain ⟨part, hp, hpr⟩ := map_eq_some_iff.mp h
          cases hpr
          rw [ho]
          conv => lhs; rw [hs, ihitems hp]
          simp [render]
        · cases h
          rw [hbr]
          conv => lhs; rw [hs, eq_cons_of_head? hc]
          simp [render]
        · obtain ⟨part, hp, hpr⟩ := map_eq_some_iff.mp h
          cases hpr
          rw [hbr]
          conv => lhs; rw [hs, ihmembers hp]
          simp [render]
        · split at h
          · next part hp =>
            cases h
            exact scanLiteral_sound hp
          · obtain ⟨part, hp, hpr⟩ := map_eq_some_iff.mp h
            cases hpr
            exact scanNumeral_sound hp
    · intro text r items h
      rw [scanItems] at h
      obtain ⟨item, hi, h⟩ := bind_eq_some_iff.mp h
      dsimp only at h
      have ha := skipSpace_self item.2
      split_ifs at h with hc hcm
      · cases h
        conv => lhs; rw [ihonce hi, ha, eq_cons_of_head? hc]
        simp [Items.render]
      · obtain ⟨part, hp, hpr⟩ := map_eq_some_iff.mp h
        cases hpr
        conv => lhs; rw [ihonce hi, ha, eq_cons_of_head? hcm,
          skipSpace_self ((skipSpace item.2).2.tail), ihitems hp]
        simp [Items.render]
    · intro text r members h
      cases text with
      | nil => cases h
      | cons quote text =>
        rw [scanMembers] at h
        split_ifs at h with hq
        obtain ⟨key, hk, h⟩ := bind_eq_some_iff.mp h
        dsimp only at h
        split_ifs at h with hcl
        obtain ⟨item, hi, h⟩ := bind_eq_some_iff.mp h
        have hb := skipSpace_self ((skipSpace key.2).2.tail)
        have ha := skipSpace_self item.2
        rw [hq, scanString_sound hk]
        split_ifs at h with hc hcm
        · cases h
          conv => lhs; rw [skipSpace_self key.2, eq_cons_of_head? hcl, hb,
            ihonce hi, ha, eq_cons_of_head? hc]
          simp [Members.render]
        · obtain ⟨part, hp, hpr⟩ := map_eq_some_iff.mp h
          cases hpr
          conv => lhs; rw [skipSpace_self key.2, eq_cons_of_head? hcl, hb,
            ihonce hi, ha, eq_cons_of_head? hcm,
            skipSpace_self ((skipSpace item.2).2.tail), ihmembers hp]
          simp [Members.render]

/-! ## the text of a tree is scanned -/

theorem literal_cons (word : Literal) : ∃ c rest, word.render = c :: rest ∧
    isJsonSpace c = false ∧ c ≠ '"' ∧ c ≠ '[' ∧ c ≠ '{' := by
  cases word <;> exact ⟨_, _, rfl, by decide⟩

theorem Numeral.render_cons (numeral : Numeral) : ∃ c rest, numeral.1 = c :: rest ∧
    isJsonSpace c = false ∧ c ≠ '"' ∧ c ≠ '[' ∧ c ≠ '{' := by
  have hch := numeral.chars
  obtain ⟨d, hd, -⟩ := numeral.exists_digit
  obtain ⟨c, rest, hcn⟩ := exists_cons_of_ne_nil (ne_nil_of_mem hd)
  have hc : isNumberChar c = true := hch c (hcn ▸ mem_cons_self)
  refine ⟨c, rest, hcn, ?_, ?_, ?_, ?_⟩
  · by_contra hs
    simp only [isJsonSpace, Bool.or_eq_true, decide_eq_true_eq, Bool.not_eq_false] at hs
    rcases hs with ((rfl | rfl) | rfl) | rfl <;> exact absurd hc (by decide)
  all_goals
    rintro rfl
    exact absurd hc (by decide)

theorem Tree.render_cons (tree : Tree) :
    ∃ c rest, tree.render = c :: rest ∧ isJsonSpace c = false := by
  cases tree with
  | literal word =>
    obtain ⟨c, rest, hcn, hc, -⟩ := literal_cons word
    exact ⟨c, rest, hcn, hc⟩
  | number numeral =>
    obtain ⟨c, rest, hcn, hc, -⟩ := numeral.render_cons
    exact ⟨c, rest, hcn, hc⟩
  | string pieces => exact ⟨_, _, rfl, by decide⟩
  | emptyArray inner => exact ⟨_, _, rfl, by decide⟩
  | array inner items => exact ⟨_, _, rfl, by decide⟩
  | emptyObject inner => exact ⟨_, _, rfl, by decide⟩
  | object inner members => exact ⟨_, _, rfl, by decide⟩

theorem Tree.stops_space (tree : Tree) (r : Text) : Stops isJsonSpace (tree.render ++ r) := by
  obtain ⟨c, rest, hcn, hc⟩ := tree.render_cons
  rw [hcn]
  exact stops_cons.mpr hc

theorem Items.render_append (items : Items) (r : Text) :
    ∃ item : Tree, ∃ rest, items.render ++ r = item.render ++ rest := by
  cases items with
  | last item after => exact ⟨item, _, append_assoc _ _ _⟩
  | more item after before items => exact ⟨item, _, append_assoc _ _ _⟩

theorem Items.stops_space (items : Items) (r : Text) : Stops isJsonSpace (items.render ++ r) := by
  obtain ⟨item, rest, heq⟩ := items.render_append r
  rw [heq]
  exact item.stops_space rest

theorem Members.render_cons (members : Members) : ∃ rest, members.render = '"' :: rest := by
  cases members with
  | last => exact ⟨_, rfl⟩
  | more => exact ⟨_, rfl⟩

theorem Members.stops_space (members : Members) (r : Text) :
    Stops isJsonSpace (members.render ++ r) := by
  obtain ⟨rest, hc⟩ := members.render_cons
  rw [hc]
  exact stops_cons.mpr (by decide)

theorem Space.stops_number (space : Space) {c : Char} (hc : isNumberChar c = false) (r : Text) :
    Stops isNumberChar (space.1 ++ c :: r) := by
  obtain ⟨text, hs⟩ := space
  cases text with
  | nil => exact stops_cons.mpr hc
  | cons d text =>
    have hd := hs d mem_cons_self
    simp only [isJsonSpace, Bool.or_eq_true, decide_eq_true_eq] at hd
    refine stops_cons.mpr ?_
    rcases hd with ((rfl | rfl) | rfl) | rfl <;> decide

theorem skipSpace_token (space : Space) {c : Char} (hc : isJsonSpace c = false) (r : Text) :
    skipSpace (space.1 ++ c :: r) = (space, c :: r) :=
  skipSpace_append space (stops_cons.mpr hc)

theorem Items.head_ne (items : Items) (r : Text) : (items.render ++ r).head? ≠ some ']' := by
  obtain ⟨item, rest, heq⟩ := items.render_append r
  rw [heq]
  cases item with
  | literal word => cases word <;> simp [Tree.render, Literal.render]
  | number numeral =>
    obtain ⟨c, rest, hcn, -⟩ := numeral.render_cons
    have hc : isNumberChar c = true := numeral.chars c (hcn ▸ mem_cons_self)
    simp only [Tree.render, hcn, cons_append, List.head?_cons, ne_eq, some.injEq]
    rintro rfl
    exact absurd hc (by decide)
  | string pieces => simp [Tree.render]
  | emptyArray inner => simp [Tree.render]
  | array inner items => simp [Tree.render]
  | emptyObject inner => simp [Tree.render]
  | object inner members => simp [Tree.render]

theorem Members.head_ne (members : Members) (r : Text) :
    (members.render ++ r).head? ≠ some '}' := by
  obtain ⟨rest, hc⟩ := members.render_cons
  rw [hc]
  simp

mutual

theorem scanOnce_render : ∀ (tree : Tree) {fuel : ℕ} {r : Text}, tree.render.length ≤ fuel →
    (tree.isNumber = true → Stops isNumberChar r) →
      scanOnce fuel (tree.render ++ r) = some (tree, r)
  | .literal word, fuel, r, h, _ => by
    obtain ⟨c, rest, hc, -, hq, ho, hb⟩ := literal_cons word
    have hs := scanLiteral_append word r
    rw [render, hc, length_cons] at h
    obtain ⟨fuel, rfl⟩ : ∃ j, fuel = j + 1 := ⟨fuel - 1, by omega⟩
    rw [render]
    rw [hc, cons_append] at hs ⊢
    rw [scanOnce, if_neg hq, if_neg ho, if_neg hb, hs]
  | .number numeral, fuel, r, h, hr => by
    obtain ⟨c, rest, hc, -, hq, ho, hb⟩ := numeral.render_cons
    have hw := scanLiteral_numeral numeral r
    have hs := scanNumeral_eq numeral (numeral.scanNumber_append (hr rfl))
    rw [render, hc, length_cons] at h
    obtain ⟨fuel, rfl⟩ : ∃ j, fuel = j + 1 := ⟨fuel - 1, by omega⟩
    rw [render]
    rw [hc, cons_append] at hs hw ⊢
    rw [scanOnce, if_neg hq, if_neg ho, if_neg hb, hw, hs]
    rfl
  | .string pieces, fuel, r, h, _ => by
    rw [render, length_cons] at h
    obtain ⟨fuel, rfl⟩ : ∃ j, fuel = j + 1 := ⟨fuel - 1, by omega⟩
    rw [render, cons_append, scanOnce, if_pos rfl, scanString_render]
    rfl
  | .emptyArray inner, fuel, r, h, _ => by
    rw [render, length_cons] at h
    obtain ⟨fuel, rfl⟩ : ∃ j, fuel = j + 1 := ⟨fuel - 1, by omega⟩
    rw [render, cons_append, append_assoc, singleton_append, scanOnce,
      if_neg (by decide), if_pos rfl, skipSpace_token inner (by decide)]
    rfl
  | .array inner items, fuel, r, h, _ => by
    rw [render, length_cons, length_append] at h
    obtain ⟨fuel, rfl⟩ : ∃ j, fuel = j + 1 := ⟨fuel - 1, by omega⟩
    rw [render, cons_append, append_assoc, scanOnce, if_neg (by decide), if_pos rfl,
      skipSpace_append inner (items.stops_space r)]
    dsimp only
    rw [if_neg (items.head_ne r), scanItems_render items (by omega)]
    rfl
  | .emptyObject inner, fuel, r, h, _ => by
    rw [render, length_cons] at h
    obtain ⟨fuel, rfl⟩ : ∃ j, fuel = j + 1 := ⟨fuel - 1, by omega⟩
    rw [render, cons_append, append_assoc, singleton_append, scanOnce,
      if_neg (by decide), if_neg (by decide), if_pos rfl, skipSpace_token inner (by decide)]
    rfl
  | .object inner members, fuel, r, h, _ => by
    rw [render, length_cons, length_append] at h
    obtain ⟨fuel, rfl⟩ : ∃ j, fuel = j + 1 := ⟨fuel - 1, by omega⟩
    rw [render, cons_append, append_assoc, scanOnce, if_neg (by decide),
      if_neg (by decide), if_pos rfl, skipSpace_append inner (members.stops_space r)]
    dsimp only
    rw [if_neg (members.head_ne r), scanMembers_render members (by omega)]
    rfl

theorem scanItems_render : ∀ (items : Items) {fuel : ℕ} {r : Text}, items.render.length ≤ fuel →
    scanItems fuel (items.render ++ r) = some (items, r)
  | .last item after, fuel, r, h => by
    rw [Items.render] at h
    simp only [length_append, length_cons, length_nil] at h
    obtain ⟨fuel, rfl⟩ : ∃ j, fuel = j + 1 := ⟨fuel - 1, by omega⟩
    have he := Space.stops_number after (c := ']') (by decide) r
    rw [Items.render, append_assoc, append_assoc, singleton_append, scanItems,
      scanOnce_render item (by omega) (fun _ => he), bind_some]
    dsimp only
    rw [skipSpace_token after (by decide)]
    rfl
  | .more item after before items, fuel, r, h => by
    rw [Items.render] at h
    simp only [length_append, length_cons] at h
    obtain ⟨fuel, rfl⟩ : ∃ j, fuel = j + 1 := ⟨fuel - 1, by omega⟩
    have he := Space.stops_number after (c := ',') (by decide) (before.1 ++ (items.render ++ r))
    rw [Items.render]
    simp only [append_assoc, cons_append]
    rw [scanItems, scanOnce_render item (by omega) (fun _ => he), bind_some]
    dsimp only
    rw [skipSpace_token after (by decide)]
    simp only [List.head?_cons, tail_cons, some.injEq, Char.reduceEq, ↓reduceIte]
    rw [skipSpace_append before (items.stops_space r)]
    dsimp only
    rw [scanItems_render items (by omega)]
    rfl

theorem scanMembers_render : ∀ (members : Members) {fuel : ℕ} {r : Text},
    members.render.length ≤ fuel → scanMembers fuel (members.render ++ r) = some (members, r)
  | .last key afterKey beforeItem item after, fuel, r, h => by
    rw [Members.render] at h
    simp only [length_append, length_cons, length_nil] at h
    obtain ⟨fuel, rfl⟩ : ∃ j, fuel = j + 1 := ⟨fuel - 1, by omega⟩
    have he := Space.stops_number after (c := '}') (by decide) r
    rw [Members.render]
    simp only [append_assoc, cons_append, nil_append]
    rw [scanMembers, if_pos rfl, scanString_render, bind_some]
    dsimp only
    rw [skipSpace_token afterKey (by decide)]
    simp only [List.head?_cons, tail_cons, ↓reduceIte]
    rw [skipSpace_append beforeItem (item.stops_space _)]
    dsimp only
    rw [scanOnce_render item (by omega) (fun _ => he), bind_some]
    dsimp only
    rw [skipSpace_token after (by decide)]
    rfl
  | .more key afterKey beforeItem item after before members, fuel, r, h => by
    rw [Members.render] at h
    simp only [length_append, length_cons] at h
    obtain ⟨fuel, rfl⟩ : ∃ j, fuel = j + 1 := ⟨fuel - 1, by omega⟩
    have he := Space.stops_number after (c := ',') (by decide)
      (before.1 ++ (members.render ++ r))
    rw [Members.render]
    simp only [append_assoc, cons_append]
    rw [scanMembers, if_pos rfl, scanString_render, bind_some]
    dsimp only
    rw [skipSpace_token afterKey (by decide)]
    simp only [List.head?_cons, tail_cons, ↓reduceIte]
    rw [skipSpace_append beforeItem (item.stops_space _)]
    dsimp only
    rw [scanOnce_render item (by omega) (fun _ => he), bind_some]
    dsimp only
    rw [skipSpace_token after (by decide)]
    simp only [List.head?_cons, tail_cons, some.injEq, Char.reduceEq, ↓reduceIte]
    rw [skipSpace_append before (members.stops_space r)]
    dsimp only
    rw [scanMembers_render members (by omega)]
    rfl

end

/-! ## `raw_decode` -/

variable {tree : Tree}

theorem rawDecode_sound (h : rawDecode text = some (tree, r)) :
    text = tree.render ++ r :=
  (scan_sound _).1 h

theorem rawDecode_render (tree : Tree) {r : Text}
    (hr : tree.isNumber = true → Stops isNumberChar r) :
    rawDecode (tree.render ++ r) = some (tree, r) :=
  scanOnce_render tree (by rw [length_append]; omega) hr

theorem literal_no_digit (word : Literal) : ∀ c ∈ word.render, isDigit c = false := by
  cases word <;> simp [Literal.render, isDigit]

theorem Tree.isNumber_of_prefix {numeral : Numeral} (h : numeral.1 <+: tree.render) :
    tree.isNumber = true := by
  obtain ⟨d, hd, hdg⟩ := numeral.exists_digit
  obtain ⟨c, rest, hc, -, hq, ho, hb⟩ := numeral.render_cons
  rw [hc] at h
  cases tree with
  | number => rfl
  | literal word =>
    rw [hc] at hd
    exact absurd hdg (by simp [literal_no_digit word d (h.subset hd)])
  | string pieces => exact absurd (cons_prefix_cons.mp h).1 hq
  | emptyArray inner => exact absurd (cons_prefix_cons.mp h).1 ho
  | array inner items => exact absurd (cons_prefix_cons.mp h).1 ho
  | emptyObject inner => exact absurd (cons_prefix_cons.mp h).1 hb
  | object inner members => exact absurd (cons_prefix_cons.mp h).1 hb

theorem rawDecode_of_take {p q : Text} (h : tree.render = p ++ q) (hq : q ≠ [])
    (hn : tree.isNumber = false) : rawDecode p = none := by
  cases hp : rawDecode p with
  | none => rfl
  | some part =>
    obtain ⟨other, r⟩ := part
    have hs := rawDecode_sound hp
    have hw : tree.render = other.render ++ (r ++ q) := by
      rw [h, hs, append_assoc]
    -- a number in front would make the whole value one
    have ho : other.isNumber = false := by
      cases other with
      | number numeral =>
        have hpr : numeral.1 <+: tree.render := by
          rw [hw]
          exact prefix_append _ _
        rw [ isNumber_of_prefix hpr] at hn
        cases hn
      | _ => rfl
    have h1 := rawDecode_render tree (r := []) (by simp [hn])
    have h2 := rawDecode_render other (r := r ++ q) (by simp [ho])
    rw [append_nil, hw, h2] at h1
    have hnl := (Prod.mk.inj (some.inj h1)).2
    exact absurd (append_eq_nil_iff.mp hnl).2 hq

/-- What `json.loads` accepts is the text of its document. -/
theorem loads_sound {text : Text} {document : Document} (h : loads text = some document) :
    text = document.render := by
  obtain ⟨⟨tree, r⟩, hp, h⟩ := bind_eq_some_iff.mp h
  split_ifs at h with hs
  cases h
  conv => lhs; rw [skipSpace_self text, rawDecode_sound hp]
  rfl

end EmuFlow.StreamingJson
