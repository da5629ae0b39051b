import EmuFlow.Errors
import EmuFlow.StreamingJson.Scanner

/-!
# Streaming JSON: the reader

`StreamingJSONObjectReader` of `emuflow/streaming_json.py`. Of the stream only the unread text is
kept; `read(chunk_size)` takes that many characters of it. A loop is bounded by the text that is
left.
-/

namespace EmuFlow.StreamingJson

open Check

structure Reader where
  stream : Text
  chunkSize : ℕ
  maxLeafChars : ℕ
  buffer : Text
  position : ℕ
  eof : Bool

namespace Reader

def init (stream : Text) (chunkSize maxLeafChars : ℕ) : Result Reader := do
  raiseIf (chunkSize = 0) (.valueError "chunk_size must be positive" [])
  raiseIf (maxLeafChars = 0) (.valueError "max_leaf_chars must be positive" [])
  return { stream := stream, chunkSize := chunkSize, maxLeafChars := maxLeafChars, buffer := []
           position := 0, eof := false }

def compact (r : Reader) : Reader :=
  if r.position ≠ 0 ∧ (r.chunkSize ≤ r.position ∨ r.position = r.buffer.length) then
    { r with buffer := r.buffer.drop r.position, position := 0 }
  else r

/-- `_fill`: the reader, and whether it has read anything. -/
def fill (r : Reader) : Bool × Reader :=
  if r.eof then (false, r)
  else
    let r := r.compact
    if r.stream.take r.chunkSize = [] then (false, { r with eof := true })
    else
      (true, { r with buffer := r.buffer ++ r.stream.take r.chunkSize
                      stream := r.stream.drop r.chunkSize })

def peekLoop : ℕ → Reader → Option Char × Reader
  | 0, r => (none, r)
  | fuel + 1, r =>
    if r.buffer.length ≤ r.position then
      if r.fill.1 then peekLoop fuel r.fill.2 else (none, r.fill.2)
    else (r.buffer[r.position]?, r)

/-- `_peek`, with `none` for the empty string. -/
def peek (r : Reader) : Option Char × Reader := peekLoop (r.stream.length + 2) r

def advance (r : Reader) : Reader := { r with position := r.position + 1 }

def take (r : Reader) : Option Char × Reader :=
  match r.peek with
  | (none, r) => (none, r)
  | (some c, r) => (some c, r.advance)

def left (r : Reader) : Text := r.buffer.drop r.position ++ r.stream

def skipWhitespaceLoop : ℕ → Reader → Reader
  | 0, r => r
  | fuel + 1, r =>
    match r.peek with
    | (none, r) => r
    | (some c, r) => if isPySpace c then skipWhitespaceLoop fuel r.advance else r

def skipWhitespace (r : Reader) : Reader := skipWhitespaceLoop (r.left.length + 1) r

def showToken : Option Char → String
  | none => ""
  | some c => c.toString

def expect (r : Reader) (token : Char) : Result Reader :=
  let found := r.skipWhitespace.take
  if found.1 ≠ some token then
    .error (.valueError "malformed JSON stream: expected %r, got %r"
      [token.toString, showToken found.1])
  else .ok found.2

/-- The loop of `read_value`; the start stays at the position. -/
def readLoop : ℕ → Reader → Result (Tree × Reader)
  | 0, _ => .error (.valueError "malformed or truncated JSON value" [])
  | fuel + 1, r =>
    match rawDecode (r.buffer.drop r.position) with
    | none =>
      if r.buffer.length - r.position > r.maxLeafChars then
        .error (.valueError "JSON leaf record exceeds the bounded streaming limit" [])
      else if r.fill.1 then readLoop fuel r.fill.2
      else .error (.valueError "malformed or truncated JSON value" [])
    | some (tree, rest) =>
      if (r.buffer.length - rest.length) - r.position > r.maxLeafChars then
        .error (.valueError "JSON leaf record exceeds the bounded streaming limit" [])
      else .ok (tree, { r with position := r.buffer.length - rest.length })

/-- `read_value`: the value is that of the tree. -/
def readValue (r : Reader) : Result (Tree × Reader) :=
  readLoop (r.skipWhitespace.stream.length + 2) r.skipWhitespace

/-- What `skip_value` keeps between two characters of a container. -/
structure Skip where
  stack : List Char
  inString : Bool := false
  escaped : Bool := false

def Skip.step (s : Skip) (c : Char) : Result Skip :=
  if s.inString then
    if s.escaped then .ok { s with escaped := false }
    else if c = '\\' then .ok { s with escaped := true }
    else if c = '"' then .ok { s with inString := false }
    else .ok s
  else if c = '"' then .ok { s with inString := true }
  else if c = '{' then .ok { s with stack := '}' :: s.stack }
  else if c = '[' then .ok { s with stack := ']' :: s.stack }
  else if c = '}' ∨ c = ']' then
    if s.stack.head? ≠ some c then .error (.valueError "mismatched JSON container" [])
    else .ok { s with stack := s.stack.tail }
  else .ok s

def skipLoop : ℕ → Skip → Reader → Result Reader
  | 0, _, _ => .error (.valueError "truncated JSON container" [])
  | fuel + 1, s, r =>
    if s.stack = [] then .ok r
    else
      match r.take with
      | (none, _) => .error (.valueError "truncated JSON container" [])
      | (some c, r) => (s.step c).bind fun s => skipLoop fuel s r

def skipValue (r : Reader) : Result Reader :=
  match r.skipWhitespace.peek with
  | (none, _) => .error (.valueError "truncated JSON value" [])
  | (some c, r) =>
    if c = '[' ∨ c = '{' then
      skipLoop (r.left.length + 1) { stack := [if c = '{' then '}' else ']'] } r.take.2
    else r.readValue.map Prod.snd

def finish (r : Reader) : Result Unit :=
  raiseIf (r.skipWhitespace.peek.1 ≠ none) (.valueError "trailing data after JSON document" [])

end Reader

/-! ## walks -/

/-- What a caller has got for a value. -/
inductive Outcome where
  | value (value : Json)
  | skipped
  | members (members : List (PyStr × Outcome))

/-- What a caller does with a value: it may go into an object and choose for each key by what it
has got so far. -/
inductive Walk where
  | read
  | skip
  | members (next : List (PyStr × Outcome) → PyStr → Walk)

/-- One turn of `object_keys` behind the separator, with the caller that consumes the value. -/
def objectMember (visit : List (PyStr × Outcome) → PyStr → Reader → Result (Outcome × Reader))
    (members : List (PyStr × Outcome)) (r : Reader) :
    Result (List (PyStr × Outcome) × Reader) := do
  let key ← r.readValue
  match key.1 with
  | .string pieces => do
    let r ← key.2.expect ':'
    let outcome ← visit members pieces.value r
    return (members ++ [(pieces.value, outcome.1)], outcome.2)
  | _ => .error (.valueError "JSON object key is not a string" [])

/-- The loop of `object_keys`. -/
def objectKeys (visit : List (PyStr × Outcome) → PyStr → Reader → Result (Outcome × Reader)) :
    ℕ → Bool → List (PyStr × Outcome) → Reader → Result (List (PyStr × Outcome) × Reader)
  | 0, _, _, _ => .error (.valueError "JSON object key is not a string" [])
  | fuel + 1, first, members, r =>
    if r.skipWhitespace.peek.1 = some '}' then .ok (members, r.skipWhitespace.peek.2.take.2)
    else do
      let r ← if first then Except.ok r.skipWhitespace.peek.2
        else r.skipWhitespace.peek.2.expect ','
      let result ← objectMember visit members r
      objectKeys visit fuel false result.1 result.2

def Walk.run : Walk → Reader → Result (Outcome × Reader)
  | .read, r => r.readValue.map fun read => (.value read.1.value, read.2)
  | .skip, r => r.skipValue.map fun r => (.skipped, r)
  | .members next, r => do
    let r ← r.expect '{'
    let result ← objectKeys (fun members key => (next members key).run) (r.left.length + 1) true []
      r
    return (.members result.1, result.2)

def Walk.stream (walk : Walk) (text : Text) (chunkSize maxLeafChars : ℕ) : Result Outcome := do
  let r ← Reader.init text chunkSize maxLeafChars
  let result ← walk.run r
  result.2.finish
  return result.1

/-!
## Streaming JSON: the window

At an offset of the document the reader holds the text up to a chunk boundary, never further than
the first boundary behind the offset. Every operation moves the offset by the text it consumes.

* `At.peek_cons`, `At.take_cons` — the character at the offset, and the offset behind it
-/

open List

/-- The reader stands at the offset, and has read no further than the chunk of the limit. -/
structure Window (doc : Text) (c m : ℕ) (r : Reader) (off limit : ℕ) : Prop where
  chunk : r.chunkSize = c
  bound : r.maxLeafChars = m
  left_eq : r.left = doc.drop off
  off_le : off ≤ doc.length
  position_le : r.position ≤ r.buffer.length
  aligned : r.stream = [] ∨ c ∣ doc.length - r.stream.length
  near : doc.length - r.stream.length ≤ c * (limit / c + 1)
  eof : r.eof = true → r.stream = []

abbrev At (doc : Text) (c m : ℕ) (r : Reader) (off : ℕ) : Prop := Window doc c m r off off

section window

variable {doc : Text} {c m : ℕ} {r : Reader} {off limit : ℕ}

section

variable (h : Window doc c m r off limit)
include h

theorem Window.mono {limit' : ℕ} (hle : limit ≤ limit') : Window doc c m r off limit' :=
  { h with
    near := h.near.trans (Nat.mul_le_mul_left c (Nat.succ_le_succ (Nat.div_le_div_right hle))) }

theorem Window.lengths :
    (r.buffer.drop r.position).length + r.stream.length + off = doc.length := by
  have hl := congrArg List.length h.left_eq
  have hd : (doc.drop off).length = doc.length - off := length_drop
  rw [Reader.left, length_append, hd] at hl
  have := h.off_le
  omega

theorem Window.left_split : r.buffer.drop r.position ++ r.stream = doc.drop off := h.left_eq

theorem Window.move {k : ℕ} (hk : k ≤ (r.buffer.drop r.position).length) (hle : limit ≤ off + k) :
    At doc c m { r with position := r.position + k } (off + k) := by
  have hl := h.lengths
  have hk' := hk
  rw [length_drop] at hk'
  have hp := h.position_le
  refine { (h.mono hle) with
    left_eq := ?_
    off_le := by omega
    position_le := ?_
    eof := h.eof }
  · show r.buffer.drop (r.position + k) ++ r.stream = _
    rw [← drop_drop, ← drop_drop, ← h.left_split, drop_append_of_le_length hk]
  · show r.position + k ≤ r.buffer.length
    omega

theorem Window.compact : Window doc c m r.compact off limit ∧
      r.compact.buffer.drop r.compact.position = r.buffer.drop r.position ∧
        r.compact.stream = r.stream ∧ r.compact.chunkSize = r.chunkSize := by
  unfold Reader.compact
  split_ifs
  · refine ⟨{ h with left_eq := ?_, position_le := Nat.zero_le _ }, rfl, rfl, rfl⟩
    show (r.buffer.drop r.position).drop 0 ++ r.stream = _
    rw [drop_zero]
    exact h.left_split
  · exact ⟨h, rfl, rfl, rfl⟩

theorem Window.fill (hc : 0 < c) (hs : r.stream ≠ [])
    (hlm : doc.length - r.stream.length ≤ limit) :
    r.fill.1 = true ∧ Window doc c m r.fill.2 off limit ∧ r.fill.2.stream.length < r.stream.length ∧
      (r.buffer.drop r.position).length < (r.fill.2.buffer.drop r.fill.2.position).length := by
  obtain ⟨hcm, hd, hst, hch⟩ := h.compact
  have he : r.eof = false := by
    by_contra he
    exact hs (h.eof (by simpa using he))
  have ht : r.compact.stream.take r.compact.chunkSize ≠ [] := by
    rw [hst, hch, h.chunk]
    intro hn
    rcases take_eq_nil_iff.mp hn with hn | hn
    · omega
    · exact hs hn
  have hp : 0 < r.stream.length := length_pos_iff.mpr hs
  have hl := h.lengths
  have hd' : (r.compact.buffer ++ r.compact.stream.take r.compact.chunkSize).drop
      r.compact.position = r.buffer.drop r.position ++ r.stream.take c := by
    rw [drop_append_of_le_length hcm.position_le, hd, hst, hch, h.chunk]
  rw [Reader.fill, he]
  simp only [Bool.false_eq_true, if_false]
  rw [if_neg ht]
  refine ⟨rfl, ⟨hcm.chunk, hcm.bound, ?_, h.off_le, ?_, ?_, ?_, ?_⟩, ?_, ?_⟩
  · show (r.compact.buffer ++ r.compact.stream.take r.compact.chunkSize).drop r.compact.position ++
      r.compact.stream.drop r.compact.chunkSize = _
    rw [hd', hst, hch, h.chunk, append_assoc, take_append_drop, h.left_split]
  · show r.compact.position ≤ (r.compact.buffer ++ _).length
    rw [length_append]
    exact hcm.position_le.trans (Nat.le_add_right _ _)
  · show r.compact.stream.drop r.compact.chunkSize = [] ∨
      c ∣ doc.length - (r.compact.stream.drop r.compact.chunkSize).length
    rw [hst, hch, h.chunk, length_drop]
    rcases Nat.lt_or_ge c r.stream.length with hlt | hge
    · right
      obtain ⟨k, hk⟩ := h.aligned.resolve_left hs
      exact ⟨k + 1, by rw [Nat.mul_add, ← hk]; omega⟩
    · exact .inl (drop_eq_nil_of_le hge)
  · show doc.length - (r.compact.stream.drop r.compact.chunkSize).length ≤ _
    rw [hst, hch, h.chunk, length_drop]
    obtain ⟨k, hk⟩ := h.aligned.resolve_left hs
    have hkl : k ≤ limit / c := by
      rw [Nat.le_div_iff_mul_le hc, Nat.mul_comm, ← hk]
      exact hlm
    have hm := Nat.mul_le_mul_left c (Nat.succ_le_succ hkl)
    rw [Nat.succ_eq_add_one, Nat.mul_add, ← hk] at hm
    rw [Nat.succ_eq_add_one] at hm
    omega
  · intro hcn
    exact absurd (hcn.symm.trans (show r.compact.eof = false by
      unfold Reader.compact
      split_ifs <;> exact he)) (by decide)
  · show (r.compact.stream.drop r.compact.chunkSize).length < _
    rw [hst, hch, h.chunk, length_drop]
    omega
  · show _ < ((r.compact.buffer ++ r.compact.stream.take r.compact.chunkSize).drop
      r.compact.position).length
    rw [hd', length_append, length_take]
    omega

theorem Window.fill_nil (hs : r.stream = []) :
    r.fill.1 = false ∧ Window doc c m r.fill.2 off limit := by
  obtain ⟨hc, hd, hst, hch⟩ := h.compact
  rw [Reader.fill]
  split_ifs with he
  · exact ⟨rfl, h⟩
  · have ht : r.compact.stream.take r.compact.chunkSize = [] := by
      rw [hst, hs, take_nil]
    dsimp only
    rw [if_pos ht]
    exact ⟨rfl, { hc with
      left_eq := hc.left_eq
      eof := fun _ => hst.trans hs }⟩

end

/-! ## `_peek` and `_take` -/

theorem At.peek_none (h : At doc c m r off) (hn : doc.drop off = []) :
    r.peek.1 = none ∧ At doc c m r.peek.2 off := by
  have hl := h.left_split
  rw [hn, append_eq_nil_iff] at hl
  have hp : r.buffer.length ≤ r.position := drop_eq_nil_iff.mp hl.1
  obtain ⟨hf, hfl⟩ := h.fill_nil hl.2
  rw [Reader.peek, Reader.peekLoop, if_pos hp, if_neg (by simp [hf])]
  exact ⟨rfl, hfl⟩

variable {rest : Text}

theorem peekLoop_buffered (h : Window doc c m r off limit) {ch : Char}
    (hc : doc.drop off = ch :: rest) (hlt : r.position < r.buffer.length) (fuel : ℕ) :
    Reader.peekLoop (fuel + 1) r = (some ch, r) := by
  have hl := h.left_split
  rw [hc, drop_eq_getElem_cons hlt, cons_append] at hl
  rw [Reader.peekLoop, if_neg (Nat.not_le.mpr hlt), List.getElem?_eq_getElem hlt,
    (List.cons.inj hl).1]

theorem At.peek_cons (h : At doc c m r off) (hc : 0 < c) {ch : Char}
    (hcn : doc.drop off = ch :: rest) :
    r.peek.1 = some ch ∧ At doc c m r.peek.2 off ∧ r.peek.2.position < r.peek.2.buffer.length := by
  by_cases hlt : r.position < r.buffer.length
  · rw [Reader.peek, peekLoop_buffered h hcn hlt]
    exact ⟨rfl, h, hlt⟩
  · have hd : r.buffer.drop r.position = [] := drop_eq_nil_of_le (by omega)
    have hl := h.left_split
    rw [hd, nil_append, hcn] at hl
    have hs : r.stream ≠ [] := by
      rw [hl]
      exact cons_ne_nil _ _
    have hln := h.lengths
    rw [hd, length_nil] at hln
    obtain ⟨ht, hf, -, hg⟩ := h.fill hc hs (by omega)
    have hlt' : r.fill.2.position < r.fill.2.buffer.length := by
      rw [hd, length_nil, length_drop] at hg
      omega
    rw [Reader.peek, Reader.peekLoop, if_pos (by omega), if_pos ht,
      peekLoop_buffered hf hcn hlt']
    exact ⟨rfl, hf, hlt'⟩

theorem drop_add_of_append {doc a b : Text} {off : ℕ} (h : doc.drop off = a ++ b) :
    doc.drop (off + a.length) = b := by
  rw [← drop_drop, h, drop_left]

theorem At.take_cons (h : At doc c m r off) (hc : 0 < c) {ch : Char}
    (hcn : doc.drop off = ch :: rest) : r.take.1 = some ch ∧ At doc c m r.take.2 (off + 1) := by
  obtain ⟨hp, ha, hlt⟩ := h.peek_cons hc hcn
  have hpr : r.peek = (some ch, r.peek.2) := Prod.ext hp rfl
  rw [Reader.take, hpr]
  refine ⟨rfl, ha.move (k := 1) ?_ (Nat.le_add_right _ _)⟩
  rw [length_drop]
  omega

theorem skipWhitespaceLoop_at (hc : 0 < c) : ∀ (space : Text) (fuel : ℕ) {rest : Text} {r : Reader}
    {off : ℕ}, At doc c m r off → doc.drop off = space ++ rest →
      (∀ ch ∈ space, isJsonSpace ch = true) → Stops isPySpace rest → space.length < fuel →
        At doc c m (Reader.skipWhitespaceLoop fuel r) (off + space.length) ∧
          (rest ≠ [] → (Reader.skipWhitespaceLoop fuel r).position <
            (Reader.skipWhitespaceLoop fuel r).buffer.length)
  | [], fuel, rest, r, off, h, hd, _, hr, hf => by
    obtain ⟨fuel, rfl⟩ : ∃ j, fuel = j + 1 := ⟨fuel - 1, by omega⟩
    rw [Reader.skipWhitespaceLoop]
    cases rest with
    | nil =>
      obtain ⟨hp, ha⟩ := h.peek_none hd
      have hpr : r.peek = (none, r.peek.2) := Prod.ext hp rfl
      rw [hpr]
      exact ⟨ha, fun hne => absurd rfl hne⟩
    | cons ch rest =>
      obtain ⟨hp, ha, hlt⟩ := h.peek_cons hc hd
      have hpr : r.peek = (some ch, r.peek.2) := Prod.ext hp rfl
      rw [hpr]
      dsimp only
      rw [if_neg (by simp [stops_cons.mp hr])]
      exact ⟨ha, fun _ => hlt⟩
  | ch :: space, fuel, rest, r, off, h, hd, hs, hr, hf => by
    obtain ⟨fuel, rfl⟩ : ∃ j, fuel = j + 1 := ⟨fuel - 1, by omega⟩
    rw [Reader.skipWhitespaceLoop]
    obtain ⟨hp, ha, hlt⟩ := h.peek_cons hc hd
    have hpr : r.peek = (some ch, r.peek.2) := Prod.ext hp rfl
    rw [hpr]
    dsimp only
    rw [if_pos (isPySpace_of_isJsonSpace (hs ch mem_cons_self))]
    have hn : At doc c m r.peek.2.advance (off + 1) := by
      refine ha.move (k := 1) ?_ (Nat.le_add_right _ _)
      rw [length_drop]
      omega
    have hd' : doc.drop (off + 1) = space ++ rest := drop_add_of_append (a := [ch]) hd
    have ih := skipWhitespaceLoop_at hc space fuel hn hd'
      (fun ch hch => hs ch (mem_cons_of_mem _ hch)) hr
      (by rw [length_cons] at hf; omega)
    rw [Nat.add_assoc, Nat.add_comm 1] at ih
    exact ih

theorem At.skipWhitespace (h : At doc c m r off) (hc : 0 < c) (space : Space)
    (hd : doc.drop off = space.1 ++ rest) (hr : Stops isPySpace rest) :
    At doc c m r.skipWhitespace (off + space.1.length) ∧
      (rest ≠ [] → r.skipWhitespace.position < r.skipWhitespace.buffer.length) := by
  refine skipWhitespaceLoop_at hc space.1 _ h hd space.2 hr ?_
  rw [h.left_eq, hd, length_append]
  omega

/-- `expect` on the token that comes. -/
theorem At.expect (h : At doc c m r off) (hc : 0 < c) (space : Space) {token : Char}
    (hd : doc.drop off = space.1 ++ token :: rest) (ht : isPySpace token = false) :
    ∃ r', r.expect token = .ok r' ∧ At doc c m r' (off + space.1.length + 1) := by
  obtain ⟨ha, -⟩ := h.skipWhitespace hc space hd (stops_cons.mpr ht)
  obtain ⟨htk, hn⟩ := ha.take_cons hc (drop_add_of_append hd)
  refine ⟨_, ?_, hn⟩
  rw [Reader.expect, if_neg (by simp [htk])]

/-- `expect` on another character. -/
theorem At.expect_ne (h : At doc c m r off) (hc : 0 < c) {token ch : Char}
    (hd : doc.drop off = ch :: rest) (hch : isPySpace ch = false) (hne : ch ≠ token) :
    ∃ e, r.expect token = .error e := by
  obtain ⟨ha, -⟩ := h.skipWhitespace hc ⟨[], fun _ hm => absurd hm not_mem_nil⟩ hd
    (stops_cons.mpr hch)
  obtain ⟨ht, -⟩ := ha.take_cons hc hd
  have hf : r.skipWhitespace.take.1 ≠ some token := by
    rw [ht]
    simpa using hne
  rw [Reader.expect, if_pos hf]
  exact ⟨_, rfl⟩

end window

end EmuFlow.StreamingJson
