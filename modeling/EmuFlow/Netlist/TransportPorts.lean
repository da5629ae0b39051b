import EmuFlow.Tdm.Records

/-!
# The transport ports of an FPGA

`_sv_name`, `transport_endpoint_port` and the bus names of `transport_to_systemverilog` of
`emuflow/netlist.py`, for the endpoints that `build_split_artifacts` places at an FPGA. A port is
named after its kind, its link and its peer; in the name every character but the letters and digits
is an underscore, and underscores join the parts.
-/

namespace EmuFlow.Netlist

open SortedSet Tdm List

/-! ## names -/

/-- `[A-Za-z0-9_]`. -/
def isWord (c : Char) : Bool := c.isAlphanum || c = '_'

def sanitize (c : Char) : Char := if isWord c then c else '_'

def svChars (value : List Char) : List Char :=
  match value.map sanitize with
  | [] => ['n', '_']
  | c :: name => if c.isDigit then 'n' :: '_' :: c :: name else c :: name

def svName (value : String) : String := String.ofList (svChars value.toList)

inductive EndpointKind where
  | tx
  | rx
  deriving DecidableEq

def EndpointKind.text : EndpointKind → String
  | .tx => "tx"
  | .rx => "rx"

def transportEndpointPort (kind : EndpointKind) (link peer : String) : String :=
  kind.text ++ "_" ++ svName link ++ "_" ++ svName peer

structure TransportEndpoint where
  id : String
  kind : EndpointKind
  fpga : String
  peer : String
  link : String

def endpointId (kind : EndpointKind) (scheduleEntryId : String) : String :=
  "__emuflow_" ++ kind.text ++ "_" ++ scheduleEntryId

def entryEndpoints (entry : TdmEntry) : List TransportEndpoint :=
  [{ id := endpointId .tx entry.id, kind := .tx, fpga := entry.source, peer := entry.sink
     link := entry.link },
   { id := endpointId .rx entry.id, kind := .rx, fpga := entry.sink, peer := entry.source
     link := entry.link }]

def localEndpoints (entries : List TdmEntry) (fpga : String) : List TransportEndpoint :=
  sortedBy TransportEndpoint.id
    (((sortedBy TdmEntry.id entries).flatMap entryEndpoints).filter fun e => e.fpga = fpga)

structure BusPort where
  link : String
  peer : String
  kind : EndpointKind
  name : String
  deriving DecidableEq

def groupPorts (endpoints : List TransportEndpoint) (group : String ×ₗ String) : List BusPort :=
  [EndpointKind.rx, EndpointKind.tx].filterMap fun kind =>
    if ∃ e ∈ endpoints, lex e.link e.peer = group ∧ e.kind = kind then
      some { link := group.1, peer := group.2, kind := kind
             name := transportEndpointPort kind group.1 group.2 }
    else none

/-- `bus_name` with its keys, in the order of the module's ports. -/
def busPorts (endpoints : List TransportEndpoint) : List BusPort :=
  (sortedSet (endpoints.map fun e => lex e.link e.peer)).flatMap (groupPorts endpoints)

theorem mem_busPorts {endpoints : List TransportEndpoint} {port : BusPort} :
    port ∈ busPorts endpoints ↔ ∃ e ∈ endpoints,
      port = { link := e.link, peer := e.peer, kind := e.kind
               name := transportEndpointPort e.kind e.link e.peer } := by
  simp only [busPorts, mem_flatMap, mem_sortedSet, mem_map, groupPorts, mem_filterMap]
  constructor
  · rintro ⟨group, -, kind, -, hp⟩
    split at hp
    · next hex =>
      obtain ⟨e, he, rfl, rfl⟩ := hex
      exact ⟨e, he, (Option.some.inj hp).symm⟩
    · cases hp
  · rintro ⟨e, he, rfl⟩
    refine ⟨lex e.link e.peer, ⟨e, he, rfl⟩, e.kind, by cases e.kind <;> simp, ?_⟩
    rw [if_pos ⟨e, he, rfl, rfl⟩]
    rfl

/-! ## when two names are the same -/

/-- A text behind the prefix that a name may not lack. -/
def padded (value : List Char) : List Char :=
  match value with
  | [] => ['n', '_']
  | c :: _ => if c.isDigit then 'n' :: '_' :: value else value

/-- Two characters look alike in a name: they are the same, or neither is a letter or a digit. -/
def LookAlike (c d : Char) : Prop := c = d ∨ (c.isAlphanum = false ∧ d.isAlphanum = false)

def wording (link peer : String) : List Char := padded link.toList ++ '_' :: padded peer.toList

/-- The texts of two ports look alike, character by character. -/
def Confusable (link peer link' peer' : String) : Prop :=
  Forall₂ LookAlike (wording link peer) (wording link' peer')

theorem sanitize_eq_iff {c d : Char} : sanitize c = sanitize d ↔ LookAlike c d := by
  have hs : ∀ c : Char, sanitize c = if c.isAlphanum then c else '_' := by
    intro c
    by_cases hu : c = '_'
    · subst hu
      decide
    · simp [sanitize, isWord, hu]
  rw [hs, hs, LookAlike]
  cases hc : c.isAlphanum <;> cases hd : d.isAlphanum
  · simp
  · refine iff_of_false (fun heq => ?_) (fun h => ?_)
    · rw [← show '_' = d from heq] at hd
      exact absurd hd (by decide)
    · rcases h with rfl | ⟨-, h⟩
      · rw [hc] at hd
        cases hd
      · cases h
  · refine iff_of_false (fun heq => ?_) (fun h => ?_)
    · rw [show c = '_' from heq] at hc
      exact absurd hc (by decide)
    · rcases h with rfl | ⟨h, -⟩
      · rw [hc] at hd
        cases hd
      · cases h
  · simp

theorem isDigit_sanitize (c : Char) : (sanitize c).isDigit = c.isDigit := by
  unfold sanitize isWord
  cases hd : c.isDigit with
  | true => simp [Char.isAlphanum, hd]
  | false =>
    split
    · exact hd
    · rfl

theorem svChars_eq (value : List Char) : svChars value = (padded value).map sanitize := by
  cases value with
  | nil => decide
  | cons c value =>
    have hp : sanitize 'n' = 'n' ∧ sanitize '_' = '_' := by decide
    simp only [svChars, map_cons, padded, isDigit_sanitize]
    split
    · rw [map_cons, map_cons, map_cons, hp.1, hp.2]
    · rw [map_cons]

theorem toList_transportEndpointPort (kind : EndpointKind) (link peer : String) :
    (transportEndpointPort kind link peer).toList =
      kind.text.toList ++ '_' :: (wording link peer).map sanitize := by
  have hu : sanitize '_' = '_' := by decide
  simp only [transportEndpointPort, svName, String.toList_append, String.toList_ofList, svChars_eq,
    wording, map_append, map_cons, hu, append_assoc]
  rfl

/-- **When two ports have one name**: they have one kind, and their texts look alike. -/
theorem transportEndpointPort_eq_iff {kind kind' : EndpointKind} {link peer link' peer' : String} :
    transportEndpointPort kind link peer = transportEndpointPort kind' link' peer' ↔
      kind = kind' ∧ Confusable link peer link' peer' := by
  rw [← String.toList_inj, toList_transportEndpointPort, toList_transportEndpointPort]
  have hm : (wording link peer).map sanitize = (wording link' peer').map sanitize ↔
      Confusable link peer link' peer' := by
    rw [← forall₂_eq_eq_eq, forall₂_map_left_iff, forall₂_map_right_iff, Confusable]
    simp only [sanitize_eq_iff]
  rw [← hm]
  cases kind <;> cases kind' <;> simp [EndpointKind.text]

/-! ## the ports of one FPGA -/

structure SplitSchedule where
  platform : Platform
  entries : List TdmEntry
  legal : ∀ entry ∈ entries, ∃ link ∈ platform.links, link.id = entry.link ∧
    (entry.source, entry.sink) ∈ link.directions

section Split

variable (split : SplitSchedule) {fpga : String}

theorem mem_localEndpoints {entries : List TdmEntry} {e : TransportEndpoint} :
    e ∈ localEndpoints entries fpga ↔
      e.fpga = fpga ∧ ∃ entry ∈ entries, e ∈ entryEndpoints entry := by
  simp only [localEndpoints, mem_sortedBy, mem_filter, mem_flatMap, decide_eq_true_eq]
  exact And.comm

theorem exists_link_of_endpoint {e : TransportEndpoint}
    (he : e ∈ localEndpoints split.entries fpga) :
    ∃ link ∈ split.platform.links, link.id = e.link ∧
      ((fpga, e.peer) = link.endpoints ∨ (e.peer, fpga) = link.endpoints) := by
  obtain ⟨hf, en, her, hm⟩ := mem_localEndpoints.mp he
  obtain ⟨link, hl, hid, hd⟩ := split.legal en her
  have hen : (en.source, en.sink) = link.endpoints ∨
      (en.sink, en.source) = link.endpoints := by
    unfold BoardLink.directions at hd
    split at hd
    · simp only [mem_cons, not_mem_nil, or_false] at hd
      exact hd.imp_right fun h => by rw [← Prod.swap_swap link.endpoints, ← h]; rfl
    · exact Or.inl (mem_singleton.mp hd)
  simp only [entryEndpoints, mem_cons, not_mem_nil, or_false] at hm
  rcases hm with rfl | rfl
  · exact ⟨link, hl, hid, hf ▸ hen⟩
  · exact ⟨link, hl, hid, hf ▸ hen.symm⟩

theorem peer_unique {e e' : TransportEndpoint} (he : e ∈ localEndpoints split.entries fpga)
    (he' : e' ∈ localEndpoints split.entries fpga) (hl : e.link = e'.link) :
    e.peer = e'.peer := by
  obtain ⟨link, hm, hid, hen⟩ := exists_link_of_endpoint split he
  obtain ⟨link', hm', hid', hen'⟩ := exists_link_of_endpoint split he'
  obtain rfl := inj_on_of_nodup_map split.platform.link_ids_nodup hm hm'
    (hid.trans (hl.trans hid'.symm))
  have hne := link.endpoints_ne
  rcases hen with h | h <;> rcases hen' with h' | h' <;> rw [← h] at h' hne
  · exact (Prod.mk.inj h').2.symm
  · exact absurd (Prod.mk.inj h').2 hne
  · exact absurd (Prod.mk.inj h').1 hne.symm
  · exact (Prod.mk.inj h').1.symm

/-- **When the ports of an FPGA have different names.** -/
theorem portNames_distinct_iff (split : SplitSchedule) (fpga : String) :
    (∀ p ∈ busPorts (localEndpoints split.entries fpga),
      ∀ q ∈ busPorts (localEndpoints split.entries fpga),
        (p.kind, p.link, p.peer) ≠ (q.kind, q.link, q.peer) → p.name ≠ q.name) ↔
    ∀ e ∈ localEndpoints split.entries fpga, ∀ e' ∈ localEndpoints split.entries fpga,
      e.kind = e'.kind → e.link ≠ e'.link → ¬ Confusable e.link e.peer e'.link e'.peer := by
  constructor
  · intro h e he e' he' hkind hlink hconfusable
    refine h _ (mem_busPorts.mpr ⟨e, he, rfl⟩) _ (mem_busPorts.mpr ⟨e', he', rfl⟩) ?_ ?_
    · intro heq
      exact hlink (Prod.mk.inj (Prod.mk.inj heq).2).1
    · exact transportEndpointPort_eq_iff.mpr ⟨hkind, hconfusable⟩
  · intro h p hp q hq hne hname
    obtain ⟨e, he, rfl⟩ := mem_busPorts.mp hp
    obtain ⟨e', he', rfl⟩ := mem_busPorts.mp hq
    obtain ⟨hkind, hconfusable⟩ := transportEndpointPort_eq_iff.mp hname
    by_cases hlink : e.link = e'.link
    · refine hne ?_
      simp only [hkind, hlink, peer_unique split he he' hlink]
    · exact h e he e' he' hkind hlink hconfusable

end Split

theorem marked_ends : "f0" ≠ "f1" := by decide

theorem marked_fpgas_ne_nil : ([⟨"f0"⟩, ⟨"f1"⟩] : List FpgaNode) ≠ [] := by decide

theorem marked_fpgas_nodup : (([⟨"f0"⟩, ⟨"f1"⟩] : List FpgaNode).map FpgaNode.id).Nodup := by decide

def markedPlatform : Platform :=
  { name := "marked", fpgas := [⟨"f0"⟩, ⟨"f1"⟩]
    links := [oneLaneLink "a.b" "f0" "f1" 1 marked_ends, oneLaneLink "a-b" "f0" "f1" 1 marked_ends]
    fpgas_ne_nil := marked_fpgas_ne_nil, fpga_ids_nodup := marked_fpgas_nodup
    link_ids_nodup := by decide, endpoints_known := by decide }

def markedSplit : SplitSchedule :=
  { platform := markedPlatform
    entries :=
      [{ id := "e0", demand := "d000000", net := "n0", hop := 0, link := "a.b", source := "f0"
         sink := "f1", capacityKey := "a.b:f0->f1", slot := 0, lane := 0, readySlot := 0
         arrivalSlot := 1 },
       { id := "e1", demand := "d000001", net := "n1", hop := 0, link := "a-b", source := "f0"
         sink := "f1", capacityKey := "a-b:f0->f1", slot := 0, lane := 0, readySlot := 0
         arrivalSlot := 1 }]
    legal := by decide }

/-- Both output ports of `f0` are `tx_a_b_f1`. -/
theorem markedSplit_collides : ¬ ∀ p ∈ busPorts (localEndpoints markedSplit.entries "f0"),
      ∀ q ∈ busPorts (localEndpoints markedSplit.entries "f0"),
        (p.kind, p.link, p.peer) ≠ (q.kind, q.link, q.peer) → p.name ≠ q.name := by
  intro h
  have hport : ∀ link ∈ ["a.b", "a-b"],
      { link := link, peer := "f1", kind := .tx, name := "tx_a_b_f1" } ∈
        busPorts (localEndpoints markedSplit.entries "f0") := by
    decide +kernel
  exact h _ (hport "a.b" (by decide)) _ (hport "a-b" (by decide)) (by decide) rfl

end EmuFlow.Netlist
