import EmuFlow.Errors
import EmuFlow.Lib.Keyed
import EmuFlow.Lib.MachineNumber

/-!
# BoardDB platforms

The part of `emuflow/platform.py` the flow below reads: FPGAs, board links with their banks, and
the ratio delay model of a link. What `Platform.from_dict` checks of a BoardDB is a field of the
structure it constructs, so every `Platform` here is one that `from_dict` accepts.
Delays and clocks are rationals; those of a ratio model are rounded where the source rounds.
-/

namespace EmuFlow

/-! ## links -/

inductive LinkDirection where
  | full_duplex
  | half_duplex
  | unidirectional
  deriving DecidableEq

inductive LinkMode where
  | source_synchronous
  | parallel
  | serial
  | abstract
  deriving DecidableEq

inductive CapacitySharing where
  | per_direction
  | shared_bidirectional
  deriving DecidableEq

/-- `linear-ratio-v1`: the complete net delay of one hop, as a linear function of its ratio. -/
structure RatioDelayModel where
  interceptNs : ℚ
  ratioCoefficientNs : ℚ
  intercept_nonneg : 0 ≤ interceptNs
  coefficient_nonneg : 0 ≤ ratioCoefficientNs

/-- `delay_ns` at a ratio of at least one. -/
def RatioDelayModel.delayNs (m : RatioDelayModel) (ratio : ℚ) : ℚ :=
  Binary64.add m.interceptNs (Binary64.mul m.ratioCoefficientNs ratio)

theorem RatioDelayModel.delayNs_nonneg (m : RatioDelayModel) {ratio : ℚ} (h : 0 ≤ ratio) :
    0 ≤ m.delayNs ratio :=
  Binary64.round_nonneg (add_nonneg m.intercept_nonneg
    (Binary64.round_nonneg (mul_nonneg m.coefficient_nonneg h)))

/-- `bank_count` and `wires_per_bank`, which a link has both or neither of. -/
structure SharedBanks where
  bankCount : Nat
  wiresPerBank : Nat
  bankCount_pos : 0 < bankCount
  wiresPerBank_pos : 0 < wiresPerBank

/-- The checks `Platform.from_dict` makes on one link. -/
structure BoardLink where
  id : String
  endpoints : String × String
  direction : LinkDirection
  mode : LinkMode
  dataLanesPerDirection : Nat
  fabricClockMhz : ℚ
  latencyCycles : Nat
  capacitySharing : CapacitySharing := .per_direction
  payloadBitsPerLanePerCycle : Nat := 1
  banks : Option SharedBanks := none
  tdmDelayModel : Option RatioDelayModel := none
  endpoints_ne : endpoints.1 ≠ endpoints.2
  lanes_pos : 0 < dataLanesPerDirection
  clock_pos : 0 < fabricClockMhz
  payload_pos : 0 < payloadBitsPerLanePerCycle
  payload_serial : mode ≠ .serial → payloadBitsPerLanePerCycle = 1
  shared_full_duplex : capacitySharing = .shared_bidirectional → direction = .full_duplex
  banks_shared : ∀ b ∈ banks, capacitySharing = .shared_bidirectional ∧ mode ≠ .serial ∧
    payloadBitsPerLanePerCycle = 1 ∧ dataLanesPerDirection = b.bankCount * b.wiresPerBank

namespace BoardLink

variable (link : BoardLink)

def transportBitsPerCyclePerDirection : Nat :=
  link.dataLanesPerDirection * link.payloadBitsPerLanePerCycle

/-- The directed uses of a link, the declared direction first. -/
def directions : List (String × String) :=
  if link.direction = .full_duplex ∨ link.direction = .half_duplex then
    [link.endpoints, link.endpoints.swap]
  else [link.endpoints]

variable {link}

theorem directions_of_banks {b : SharedBanks} (h : link.banks = some b) :
    link.directions = [link.endpoints, link.endpoints.swap] := by
  have hd : link.direction = .full_duplex := link.shared_full_duplex (link.banks_shared b h).1
  simp [directions, hd]

end BoardLink

/-! ## the board -/

structure FpgaNode where
  id : String

/-- The checks `Platform.from_dict` makes across the FPGAs and the links. -/
structure Platform where
  name : String
  fpgas : List FpgaNode
  links : List BoardLink
  fpgas_ne_nil : fpgas ≠ []
  fpga_ids_nodup : (fpgas.map FpgaNode.id).Nodup
  link_ids_nodup : (links.map BoardLink.id).Nodup
  endpoints_known : ∀ link ∈ links,
    link.endpoints.1 ∈ fpgas.map FpgaNode.id ∧ link.endpoints.2 ∈ fpgas.map FpgaNode.id

namespace Platform

variable (platform : Platform)

def fpgaIds : List String := platform.fpgas.map FpgaNode.id

/-- `next(link for link in platform.links if link.id == link_id)`. -/
def findLink (linkId : String) : Option BoardLink :=
  Keyed.find BoardLink.id platform.links linkId

variable {platform}

end Platform

theorem hundredMhz_pos : (0 : ℚ) < 100 := by norm_num

theorem parallel_payload : LinkMode.parallel ≠ LinkMode.serial → 1 = 1 := fun _ => rfl

def oneLaneLink (id source sink : String) (latencyCycles : Nat) (h : source ≠ sink) : BoardLink :=
  { id := id, endpoints := (source, sink), direction := .unidirectional, mode := .abstract
    dataLanesPerDirection := 1, fabricClockMhz := 100, latencyCycles := latencyCycles
    endpoints_ne := h, lanes_pos := Nat.one_pos, clock_pos := hundredMhz_pos, payload_pos :=
      Nat.one_pos
    payload_serial := by decide, shared_full_duplex := by decide, banks_shared := by simp }

end EmuFlow
