import EmuFlow.StreamingJson.Syntax

/-!
# Streaming JSON: where numbers end

A number is the longest match of its pattern. It is found again in front of any text that does not
go on with a character of numbers, and every start of it that has a digit is a match as well.
-/

namespace EmuFlow.StreamingJson

open List

def Stops (p : Char → Bool) (text : Text) : Prop := ∀ c rest, text = c :: rest → p c = false

theorem Stops.nil {p : Char → Bool} : Stops p [] := fun _ _ h => by cases h

variable {c : Char} {text : Text}

theorem stops_cons {p : Char → Bool} : Stops p (c :: text) ↔ p c = false := by
  constructor
  · exact fun h => h c text rfl
  · intro h d rest heq
    rw [← (List.cons.inj heq).1]
    exact h

theorem Stops.mono {p q : Char → Bool} (h : Stops q text)
    (hpq : ∀ c, p c = true → q c = true) : Stops p text := by
  intro c rest hc
  by_contra hp
  exact absurd (hpq c (by simpa using hp)) (by simp [h c rest hc])

theorem Stops.append {p : Char → Bool} {a b : Text} (ha : Stops p a) (hb : Stops p b) :
    Stops p (a ++ b) := by
  cases a with
  | nil => exact hb
  | cons c a => exact stops_cons.mpr (stops_cons.mp ha)

theorem mem_takeWhile {p : Char → Bool} : ∀ c ∈ text.takeWhile p, p c = true :=
  fun _ h => mem_takeWhile_imp h

section takeWhile

variable {p : Char → Bool} {a b : Text}

theorem takeWhile_append_stops (ha : ∀ c ∈ a, p c = true) (hb : Stops p b) :
    (a ++ b).takeWhile p = a := by
  rw [takeWhile_append_of_pos ha]
  cases b with
  | nil => simp
  | cons c b => simp [stops_cons.mp hb]

theorem dropWhile_append_stops (ha : ∀ c ∈ a, p c = true) (hb : Stops p b) :
    (a ++ b).dropWhile p = b := by
  rw [dropWhile_append_of_pos ha]
  cases b with
  | nil => rfl
  | cons c b => simp [stops_cons.mp hb]

end takeWhile

/-! ## the parts of a number -/

variable {p n r : Text}

theorem scanNatural_cases (h : scanNatural p = some (n, r)) :
    p = n ++ r ∧ n ≠ [] ∧ (∀ c ∈ n, isDigit c = true) ∧
      ∀ r', Stops isDigit r' → scanNatural (n ++ r') = some (n, r') := by
  cases p with
  | nil => cases h
  | cons c text =>
    rw [scanNatural] at h
    split_ifs at h with hz hd
    · cases h
      refine ⟨rfl, cons_ne_nil _ _, ?_, fun r' _ => ?_⟩
      · rw [hz]
        exact forall_mem_singleton.mpr (by decide)
      · rw [singleton_append, scanNatural, if_pos hz]
    · cases h
      refine ⟨?_, cons_ne_nil _ _, ?_, fun r' hr' => ?_⟩
      · rw [cons_append, takeWhile_append_dropWhile]
      · exact forall_mem_cons.mpr ⟨hd, mem_takeWhile⟩
      · rw [cons_append, scanNatural, if_neg hz, if_pos hd,
          takeWhile_append_stops mem_takeWhile hr', dropWhile_append_stops mem_takeWhile hr']

theorem scanNatural_of_digit (h : isDigit c = true) (text : Text) :
    ∃ part, scanNatural (c :: text) = some part := by
  rw [scanNatural]
  split_ifs
  · exact ⟨_, rfl⟩
  · exact ⟨_, rfl⟩

theorem isNumberChar_of_isDigit (h : isDigit c = true) : isNumberChar c = true := by
  simp [isNumberChar, h]

theorem scanInteger_cases (h : scanInteger p = some (n, r)) :
    p = n ++ r ∧ (∃ c ∈ n, isDigit c = true) ∧ (∀ c ∈ n, isNumberChar c = true) ∧
      ∀ r', Stops isDigit r' → scanInteger (n ++ r') = some (n, r') := by
  cases p with
  | nil => cases h
  | cons c text =>
    rw [scanInteger] at h
    split_ifs at h with hmn
    · obtain ⟨⟨m, r₁⟩, hm, hp⟩ := Option.map_eq_some_iff.mp h
      cases hp
      obtain ⟨rfl, hne, hdg, ha⟩ := scanNatural_cases hm
      obtain ⟨d, hd⟩ := exists_mem_of_ne_nil _ hne
      refine ⟨rfl, ⟨d, mem_cons_of_mem _ hd, hdg d hd⟩, ?_, fun r' hr' => ?_⟩
      · refine forall_mem_cons.mpr ⟨?_, fun c hc => isNumberChar_of_isDigit (hdg c hc)⟩
        rw [hmn]
        decide
      · rw [cons_append, scanInteger, if_pos hmn, ha r' hr']
        rfl
    · obtain ⟨heq, hne, hdg, ha⟩ := scanNatural_cases h
      obtain ⟨d, hd⟩ := exists_mem_of_ne_nil _ hne
      refine ⟨heq, ⟨d, hd, hdg d hd⟩, fun c hc => isNumberChar_of_isDigit (hdg c hc),
        fun r' hr' => ?_⟩
      cases n with
      | nil => exact absurd rfl hne
      | cons c' n =>
        obtain ⟨rfl, -⟩ := List.cons.inj heq
        rw [cons_append, scanInteger, if_neg hmn]
        exact ha r' hr'

theorem scanFraction_cases {p f r : Text} (h : scanFraction p = (f, r)) :
    p = f ++ r ∧ (∀ c ∈ f, isNumberChar c = true) ∧ Stops isDigit f ∧
      ∀ r', Stops isNumberChar r' ∨ (Stops isDigit r' ∧ f ≠ []) ∨ (Stops (· = '.') r' ∧ f = []) →
        scanFraction (f ++ r') = (f, r') := by
  have hn : ∀ r', Stops (· = '.') r' → scanFraction r' = ([], r') := by
    intro r' hr'
    cases r' with
    | nil => rfl
    | cons c r' =>
      have hc : ¬c = '.' := by simpa using stops_cons.mp hr'
      rw [scanFraction, if_neg (fun hdt => hc hdt.1)]
  have he : ([], p) = (f, r) → p = f ++ r ∧ (∀ c ∈ f, isNumberChar c = true) ∧
      Stops isDigit f ∧ ∀ r', Stops isNumberChar r' ∨ (Stops isDigit r' ∧ f ≠ []) ∨
        (Stops (· = '.') r' ∧ f = []) → scanFraction (f ++ r') = (f, r') := by
    intro heq
    cases heq
    refine ⟨rfl, fun _ hc => absurd hc not_mem_nil, .nil, fun r' hr' => ?_⟩
    rcases hr' with hr' | ⟨-, hne⟩ | ⟨hr', -⟩
    · refine hn r' (hr'.mono fun c hc => ?_)
      rw [decide_eq_true_eq] at hc
      rw [hc]
      decide
    · exact absurd rfl hne
    · exact hn r' hr'
  cases p with
  | nil => exact he h
  | cons c text =>
    rw [scanFraction] at h
    split_ifs at h with hdt
    · cases h
      have hc : isDigit c = false := by rw [hdt.1]; decide
      refine ⟨?_, ?_, stops_cons.mpr hc, fun r' hr' => ?_⟩
      · rw [cons_append, takeWhile_append_dropWhile]
      · refine forall_mem_cons.mpr ⟨?_, fun d hd => isNumberChar_of_isDigit (mem_takeWhile d hd)⟩
        rw [hdt.1]
        decide
      · have hs : Stops isDigit r' := by
          rcases hr' with hr' | ⟨hr', -⟩ | ⟨-, hnl⟩
          · exact hr'.mono fun _ => isNumberChar_of_isDigit
          · exact hr'
          · cases hnl
        rw [cons_append, scanFraction, takeWhile_append_stops mem_takeWhile hs,
          dropWhile_append_stops mem_takeWhile hs, if_pos hdt]
    · exact he h

theorem exponent_char (h : c = 'e' ∨ c = 'E') :
    isNumberChar c = true ∧ isDigit c = false ∧ decide (c = '.') = false := by
  rcases h with rfl | rfl <;> decide

theorem scanExponent_cases {p e r : Text} (h : scanExponent p = (e, r)) :
    p = e ++ r ∧ (∀ c ∈ e, isNumberChar c = true) ∧ Stops isDigit e ∧ Stops (· = '.') e ∧
      ∀ r', Stops isNumberChar r' → scanExponent (e ++ r') = (e, r') := by
  have hnn : ∀ r', Stops isNumberChar r' → scanExponent r' = ([], r') := by
    intro r' hr'
    match r' with
    | [] => rfl
    | [c] => rfl
    | c :: d :: r' =>
      have hc := stops_cons.mp hr'
      have hex : ¬(c = 'e' ∨ c = 'E') := by
        rintro (rfl | rfl) <;> exact absurd hc (by decide)
      rw [scanExponent, if_neg hex]
  have he : ([], p) = (e, r) → p = e ++ r ∧ (∀ c ∈ e, isNumberChar c = true) ∧
      Stops isDigit e ∧ Stops (· = '.') e ∧
        ∀ r', Stops isNumberChar r' → scanExponent (e ++ r') = (e, r') := by
    intro heq
    cases heq
    exact ⟨rfl, fun _ hc => absurd hc not_mem_nil, .nil, .nil, hnn⟩
  match p with
  | [] => exact he h
  | [c] => exact he h
  | c :: d :: rest =>
    rw [scanExponent] at h
    split_ifs at h with hex hsg hdg
    · cases h
      have hd : isNumberChar d = true := by
        have hs := hsg.1
        simp only [isSign, Bool.or_eq_true, decide_eq_true_eq] at hs
        rcases hs with rfl | rfl <;> decide
      have hc := exponent_char hex
      refine ⟨?_, ?_, stops_cons.mpr hc.2.1, stops_cons.mpr hc.2.2, fun r' hr' => ?_⟩
      · rw [cons_append, cons_append, takeWhile_append_dropWhile]
      · exact forall_mem_cons.mpr ⟨hc.1, forall_mem_cons.mpr ⟨hd, fun x hx =>
          isNumberChar_of_isDigit (mem_takeWhile x hx)⟩⟩
      · have hst : Stops isDigit r' := hr'.mono fun _ => isNumberChar_of_isDigit
        rw [cons_append, cons_append, scanExponent, if_pos hex,
          takeWhile_append_stops mem_takeWhile hst,
          dropWhile_append_stops mem_takeWhile hst, if_pos hsg]
    · cases h
      have hn : isSign d = false := by
        by_contra hs
        simp only [isSign, Bool.or_eq_false_iff, decide_eq_false_iff_not, not_and_or, not_not] at hs
        rcases hs with rfl | rfl <;> exact absurd hdg (by decide)
      have hc := exponent_char hex
      refine ⟨?_, ?_, stops_cons.mpr hc.2.1, stops_cons.mpr hc.2.2, fun r' hr' => ?_⟩
      · rw [cons_append, cons_append, takeWhile_append_dropWhile]
      · exact forall_mem_cons.mpr ⟨hc.1, forall_mem_cons.mpr
          ⟨isNumberChar_of_isDigit hdg, fun x hx =>
            isNumberChar_of_isDigit (mem_takeWhile x hx)⟩⟩
      · have hst : Stops isDigit r' := hr'.mono fun _ => isNumberChar_of_isDigit
        rw [cons_append, cons_append, scanExponent, if_pos hex,
          takeWhile_append_stops mem_takeWhile hst,
          dropWhile_append_stops mem_takeWhile hst,
          if_neg (fun hs => by simp [hn] at hs), if_pos hdg]
    · exact he h
    · exact he h

/-! ## numbers -/

theorem scanNumber_cases (h : scanNumber p = some (n, r)) :
    p = n ++ r ∧ (∃ c ∈ n, isDigit c = true) ∧ (∀ c ∈ n, isNumberChar c = true) ∧
      ∀ r', Stops isNumberChar r' → scanNumber (n ++ r') = some (n, r') := by
  obtain ⟨⟨i, r₁⟩, hi, hpr⟩ := Option.map_eq_some_iff.mp h
  dsimp only at hpr
  obtain ⟨f, r₂, hf⟩ : ∃ f r₂, scanFraction r₁ = (f, r₂) := ⟨_, _, rfl⟩
  rw [hf] at hpr
  dsimp only at hpr
  obtain ⟨e, r₃, he⟩ : ∃ e r₃, scanExponent r₂ = (e, r₃) := ⟨_, _, rfl⟩
  rw [he] at hpr
  cases hpr
  obtain ⟨rfl, ⟨d, hd, hdt⟩, hic, hig⟩ := scanInteger_cases hi
  obtain ⟨rfl, hfc, hfs, hfg⟩ := scanFraction_cases hf
  obtain ⟨rfl, hec, hes, hed, heg⟩ := scanExponent_cases he
  refine ⟨by simp [append_assoc], ⟨d, by simp [hd], hdt⟩, ?_, fun r' hr' => ?_⟩
  · intro c hc
    rcases List.mem_append.mp hc with hc | hc
    · rcases List.mem_append.mp hc with hc | hc
      · exact hic c hc
      · exact hfc c hc
    · exact hec c hc
  · have hdg : Stops isDigit r' := hr'.mono fun _ => isNumberChar_of_isDigit
    have hin : scanInteger (i ++ (f ++ (e ++ r'))) = some (i, f ++ (e ++ r')) :=
      hig _ (hfs.append (hes.append hdg))
    have hdo : Stops (· = '.') (e ++ r') := hed.append (hr'.mono fun c hc => by
      rw [decide_eq_true_eq] at hc
      rw [hc]
      decide)
    have hfr : scanFraction (f ++ (e ++ r')) = (f, e ++ r') := by
      refine hfg _ (.inr ?_)
      by_cases hnl : f = []
      · exact .inr ⟨hdo, hnl⟩
      · exact .inl ⟨hes.append hdg, hnl⟩
    rw [scanNumber, append_assoc, append_assoc, hin, Option.map_some]
    dsimp only
    rw [hfr]
    dsimp only
    rw [heg r' hr', append_assoc]

theorem scanNumber_sound (h : scanNumber p = some (n, r)) :
    ∃ numeral : Numeral, numeral.1 = n ∧ p = n ++ r := by
  obtain ⟨hp, -, -, ha⟩ := scanNumber_cases h
  refine ⟨⟨n, ?_⟩, rfl, hp⟩
  have hs := ha [] .nil
  rwa [append_nil] at hs

namespace Numeral

variable (numeral : Numeral)

/-- A number is scanned to its end. -/
theorem scanNumber_append {r : Text} (hr : Stops isNumberChar r) :
    scanNumber (numeral.1 ++ r) = some (numeral.1, r) :=
  (scanNumber_cases numeral.2).2.2.2 r hr

theorem exists_digit : ∃ c ∈ numeral.1, isDigit c = true := (scanNumber_cases numeral.2).2.1

theorem chars : ∀ c ∈ numeral.1, isNumberChar c = true := (scanNumber_cases numeral.2).2.2.1

def signLength (numeral : Numeral) : ℕ := if numeral.1.head? = some '-' then 1 else 0

theorem digits : ∃ d rest, isDigit d = true ∧
      ((numeral.1 = '-' :: d :: rest ∧ numeral.signLength = 1) ∨
        (numeral.1 = d :: rest ∧ numeral.signLength = 0)) := by
  obtain ⟨integer, hi, -⟩ := Option.map_eq_some_iff.mp numeral.2
  have hn : ∀ {text : Text} {part : Text × Text}, scanNatural text = some part →
      ∃ d rest, isDigit d = true ∧ text = d :: rest := by
    intro text part hp
    obtain ⟨ht, hne, hdg, -⟩ := scanNatural_cases hp
    obtain ⟨d, rest, hc⟩ := exists_cons_of_ne_nil hne
    refine ⟨d, rest ++ part.2, hdg d (hc ▸ mem_cons_self), ?_⟩
    rw [ht, hc]
    rfl
  obtain ⟨text, ht⟩ := numeral
  dsimp only at hi
  cases text with
  | nil => cases hi
  | cons c text =>
    rw [scanInteger] at hi
    split_ifs at hi with hm
    · obtain ⟨part, hp, -⟩ := Option.map_eq_some_iff.mp hi
      obtain ⟨d, rest, hd, rfl⟩ := hn hp
      refine ⟨d, rest, hd, .inl ⟨?_, ?_⟩⟩
      · exact congrArg (· :: d :: rest) hm
      · rw [signLength, if_pos (by simp [hm])]
    · obtain ⟨d, rest, hd, hc⟩ := hn hi
      obtain ⟨rfl, rfl⟩ := List.cons.inj hc
      refine ⟨c, text, hd, .inr ⟨rfl, ?_⟩⟩
      rw [signLength, if_neg (by simpa using hm)]

theorem scanNumber_prefix {p q : Text} (h : numeral.1 = p ++ q)
    (hl : numeral.signLength < p.length) : ∃ part, scanNumber p = some part := by
  have hi : ∃ part, scanInteger p = some part := by
    obtain ⟨d, rest, hd, ⟨ht, hs⟩ | ⟨ht, hs⟩⟩ := numeral.digits
    · rw [hs] at hl
      match p, hl with
      | a :: b :: p, _ =>
        rw [ht] at h
        obtain ⟨hm, h⟩ := List.cons.inj h
        obtain ⟨rfl, h⟩ := List.cons.inj h
        obtain ⟨part, hp⟩ := scanNatural_of_digit hd p
        rw [scanInteger, if_pos hm.symm, hp]
        exact ⟨_, rfl⟩
    · rw [hs] at hl
      match p, hl with
      | a :: p, _ =>
        rw [ht] at h
        obtain ⟨rfl, h⟩ := List.cons.inj h
        have hm : ¬d = '-' := by
          rintro rfl
          exact absurd hd (by decide)
        rw [scanInteger, if_neg hm]
        exact scanNatural_of_digit hd p
  obtain ⟨part, hp⟩ := hi
  rw [scanNumber, hp]
  exact ⟨_, rfl⟩

end Numeral

end EmuFlow.StreamingJson
