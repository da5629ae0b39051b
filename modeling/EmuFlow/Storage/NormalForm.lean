import EmuFlow.Storage.Historical

/-!
# EmuIR storage: the normal form

What a store keeps of a value. The normal form of each kind of record is given by its lookups, and
so are the updates by which the readers build a record.
-/

namespace EmuFlow.Storage

open Check SortedDict

/-! ## normal forms -/

def setDefault (key : String) (value : Json) (record : Dict) : Dict :=
  match get key record with
  | none => set key value record
  | some _ => record

def dropNull (key : String) (record : Dict) : Dict :=
  if get key record = some .null then without [key] record else record

def overRecord (f : Dict → Dict) : Json → Json
  | .object record => .object (f record)
  | value => value

def overItems (f : Dict → Dict) : Json → Json
  | .array items => .array (items.map (overRecord f))
  | value => value

def mapField (key : String) (f : Dict → Dict) (record : Dict) : Dict :=
  match get key record with
  | none => record
  | some value => set key (overItems f value) record

def normalEndpoint (record : Dict) : Dict := setDefault "instance" .null record

def normalPort (record : Dict) : Dict := setDefault "constant_connections" (.array []) record

def normalInstance (record : Dict) : Dict :=
  dropNull "name" (setDefault "constant_connections" (.array []) record)

def normalNet (record : Dict) : Dict :=
  dropNull "fanout" (dropNull "bus_index" (dropNull "yosys_bit" (dropNull "name"
    (setDefault "aliases" (.array [])
      (mapField "sinks" normalEndpoint (mapField "drivers" normalEndpoint record))))))

/-- The list under a key, `[]` when it is absent. -/
def listOrEmpty (key : String) (value : Dict) : Json := (get key value).getD (.array [])

/-- The value a compact store gives back: the fields the schema names, each record in normal form
and in its place. -/
def normalForm (value : Dict) : Dict :=
  display [("schema", getOrNone "schema" value), ("design", getOrNone "design" value),
    ("warnings", listOrEmpty "warnings" value),
    ("ports", overItems normalPort (listOrEmpty "ports" value)),
    ("clocks", listOrEmpty "clocks" value),
    ("instances", overItems normalInstance (listOrEmpty "instances" value)),
    ("nets", overItems normalNet (listOrEmpty "nets" value))]

/-- The value a historical store gives back: a null name of a port is dropped too. -/
def historicalForm (value : Dict) : Dict := mapField "ports" (dropNull "name") (normalForm value)

/-! ## lookups -/

variable {key k : String} {value j : Json} {record d : Dict} {f : Dict → Dict}

def present (key : String) (record : Dict) : Option Json :=
  if getOrNone key record = .null then none else some (getOrNone key record)

theorem get_setDefault : get k (setDefault key value record) =
      if k = key then some ((get key record).getD value) else get k record := by
  unfold setDefault
  split
  · next h => rw [get_set, h, Option.getD_none]
  · next v h =>
    split_ifs with hk
    · rw [hk, h, Option.getD_some]
    · rfl

theorem get_dropNull :
    get k (dropNull key record) = if k = key then present key record else get k record := by
  unfold dropNull present getOrNone
  by_cases hk : k = key
  · subst hk
    cases h : get k record <;> simp [h]
    split_ifs <;> simp_all
  · rw [if_neg hk]
    split_ifs
    · rw [get_without, if_neg (by simpa using hk)]
    · rfl

theorem get_mapField : get k (mapField key f record) =
      if k = key then (get key record).map (overItems f) else get k record := by
  unfold mapField
  split
  · next h =>
    split_ifs with hk
    · rw [hk, h, Option.map_none]
    · rfl
  · next v h => rw [get_set, h, Option.map_some]

@[simp] theorem ascending_setDefault (h : Ascending record) :
    Ascending (setDefault key value record) := by
  unfold setDefault
  split
  · exact ascending_set h
  · exact h

@[simp] theorem ascending_dropNull (h : Ascending record) : Ascending (dropNull key record) := by
  unfold dropNull
  split_ifs
  · exact ascending_without h
  · exact h

@[simp] theorem ascending_mapField (h : Ascending record) : Ascending (mapField key f record) := by
  unfold mapField
  split
  · exact h
  · exact ascending_set h

/-! ## columns and lookups -/

def TextOrNull (value : Json) : Prop := value = .null ∨ ∃ s, value = .text s

def Int64OrNull (value : Json) : Prop := value = .null ∨ ∃ n, value = .int n ∧ isInt64 n = true

def columnOf : Json → Sql
  | .text s => .text s
  | .int n => .integer n
  | _ => .null

variable {sqlite : Affinity}

theorem textColumn_of (h : TextOrNull j) : textColumn sqlite j = .ok (columnOf j) := by
  rcases h with rfl | ⟨s, rfl⟩
  · exact textColumn_null
  · exact textColumn_text s

theorem integerColumn_of (h : Int64OrNull j) : integerColumn sqlite j = .ok (columnOf j) := by
  rcases h with rfl | ⟨n, rfl, hn⟩
  · exact integerColumn_null
  · exact integerColumn_int hn

theorem get_setPresent (h : TextOrNull j ∨ Int64OrNull j) : get k (setPresent key (columnOf j) d) =
      if k = key then (if j = .null then get key d else some j) else get k d := by
  unfold setPresent
  rcases h with (rfl | ⟨s, rfl⟩) | (rfl | ⟨n, rfl, -⟩)
  · rw [if_pos (show columnOf .null = .null from rfl), if_pos rfl]
    split_ifs with hk
    · rw [hk]
    · rfl
  · simp [columnOf, Sql.toJson]
  · rw [if_pos (show columnOf .null = .null from rfl), if_pos rfl]
    split_ifs with hk
    · rw [hk]
    · rfl
  · simp [columnOf, Sql.toJson]

@[simp] theorem ascending_setPresent {column : Sql} (h : Ascending d) :
    Ascending (setPresent key column d) := by
  unfold setPresent
  split_ifs
  · exact h
  · exact ascending_set h

variable (sqlite) in
theorem nameColumn_spec (s : String) (h : TextOrNull (getOrNone "name" record)) :
    ∃ name, nameColumn sqlite record (.text s) = .ok name ∧
      (if nameFlag record (.text s) % 2 = 1 then Sql.text s else name) =
        columnOf (getOrNone "name" record) := by
  unfold nameColumn nameFlag
  by_cases hid : getOrNone "name" record = .text s
  · exact ⟨.null, if_pos hid, by simp [hid, columnOf]⟩
  · exact ⟨columnOf (getOrNone "name" record), by rw [if_neg hid, textColumn_of h], by simp [hid]⟩

theorem setName_eq {flags : ℕ} {s : String} {name : Sql} : setName flags (.text s) name d =
      setPresent "name" (if flags % 2 = 1 then .text s else name) d := by
  unfold setName setPresent
  by_cases h : flags % 2 = 1
  · rw [if_pos h, if_pos h, if_neg (by simp)]
  · rw [if_neg h, if_neg h]

end EmuFlow.Storage
