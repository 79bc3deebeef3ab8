import Mathlib.Data.List.Basic
import Aicv.Python.Library
import Aicv.Sequence.Fold

/-!
# TOML values

`Toml` is what `tomllib.loads` returns.  A table is a dictionary, with its keys in the
order of the text.  A document that sets a key twice is refused, so that no table has a key
twice.

`truthy` is `bool(v)`.  An operation that raises on a value has no result on it.

JSON has no dates and no times.  A value is dumped unless one of them, or an integer that is too
long for `str`, is somewhere in it (`isSome_json`).
-/

namespace Aicv.Python

universe u

/-- A table with values of `α`. -/
structure Table (α : Type u) where
  keys : List String
  distinct : keys.Nodup
  value : {k : String // k ∈ keys} → α

namespace Table

variable {α : Type u}

/-- The table without keys. -/
def empty : Table α := ⟨[], List.nodup_nil, fun k => absurd k.2 List.not_mem_nil⟩

/-- The table with one key. -/
def single (k : String) (v : α) : Table α := ⟨[k], List.pairwise_singleton _ k, fun _ => v⟩

/-- `d.items()`. -/
def items (t : Table α) : List (String × α) := t.keys.attach.map fun k => (k.1, t.value k)

/-- `d.get(k)`, where `None` is no value of a table. -/
def get? (t : Table α) (k : String) : Option α :=
  if h : k ∈ t.keys then some (t.value ⟨k, h⟩) else none

@[simp] theorem keys_items (t : Table α) : t.items.map Prod.fst = t.keys := by
  rw [items, List.map_map]
  exact List.attach_map_subtype_val t.keys

end Table

/-- A TOML value. -/
inductive Toml where
  | str (s : String)
  | int (n : ℤ)
  /-- A float, by its `repr`. -/
  | float (repr : String)
  | bool (b : Bool)
  /-- A date, a time or both. -/
  | datetime (iso : String)
  | arr (items : List Toml)
  | table (t : Table Toml)

namespace Toml

/-- `bool(v)`. -/
def truthy : Toml → Bool
  | str s => s ≠ ""
  | int n => n ≠ 0
  | float repr => repr ≠ "0.0" ∧ repr ≠ "-0.0"
  | bool b => b
  | datetime _ => true
  | arr items => !items.isEmpty
  | table t => !t.keys.isEmpty

/-- The table, for the methods that only a dictionary has. -/
def asTable : Toml → Option (Table Toml)
  | table t => some t
  | _ => none

/-- The items of a loop over the value. -/
def iter : Toml → Option (List Toml)
  | str s => some (s.toList.map fun c => str (String.singleton c))
  | arr items => some items
  | table t => some (t.keys.map str)
  | _ => none

/-- `c in v`, of a text of one character. -/
def hasChar (c : Char) : Toml → Option Bool
  | str s => some (c ∈ s.toList)
  | arr items => some (items.any fun
      | str s => s = String.singleton c
      | _ => false)
  | table t => some (String.singleton c ∈ t.keys)
  | _ => none

/-! ## JSON -/

/-- How many digits of an integer `str` writes. -/
def maxStrDigits : ℕ := 4300

/-- A float of JSON, by its `repr`. -/
def floatStr (repr : String) : String :=
  if repr = "nan" then "NaN"
  else if repr = "inf" then "Infinity"
  else if repr = "-inf" then "-Infinity"
  else repr

mutual

/-- What `json.dump` makes of a value, unless it raises.  Python's limit on recursion is left
out. -/
def json : Toml → Option Json
  | str s => some (.str s)
  | int n =>
      if (Nat.toDigits 10 n.natAbs).length ≤ maxStrDigits then some (.num (toString n)) else none
  | float repr => some (.num (floatStr repr))
  | bool b => some (.bool b)
  | datetime _ => none
  | arr items => (jsonAll items).map .arr
  | table t => (jsonTable t).map .obj

/-- `json`, on a list. -/
def jsonAll : List Toml → Option (List Json)
  | [] => some []
  | v :: vs => do return (← json v) :: (← jsonAll vs)

/-- `json`, on a table. -/
def jsonTable : Table Toml → Option (List (String × Json))
  | ⟨keys, _, value⟩ => keys.attach.mapM fun k => (json (value k)).map fun w => (k.1, w)

end

/-- The values that `json.dump` takes. -/
inductive Dumps : Toml → Prop where
  | str (s : String) : Dumps (str s)
  | int {n : ℤ} : (Nat.toDigits 10 n.natAbs).length ≤ maxStrDigits → Dumps (int n)
  | float (repr : String) : Dumps (float repr)
  | bool (b : Bool) : Dumps (bool b)
  | arr {items : List Toml} : (∀ v ∈ items, Dumps v) → Dumps (arr items)
  | table {t : Table Toml} : (∀ k, Dumps (t.value k)) → Dumps (table t)

/-- The induction over values. -/
@[elab_as_elim]
theorem induction {P : Toml → Prop} (str : ∀ s, P (str s)) (int : ∀ n, P (int n))
    (float : ∀ repr, P (float repr)) (bool : ∀ b, P (bool b)) (datetime : ∀ iso, P (datetime iso))
    (arr : ∀ items, (∀ v ∈ items, P v) → P (arr items))
    (table : ∀ t : Table Toml, (∀ k, P (t.value k)) → P (table t)) (v : Toml) : P v := by
  refine @Toml.rec P (fun vs => ∀ v ∈ vs, P v) (fun t => ∀ k, P (t.value k)) str int float bool
    datetime arr table ?_ ?_ ?_ v
  · exact List.forall_mem_nil P
  · exact fun _ _ hv hvs => List.forall_mem_cons.mpr ⟨hv, hvs⟩
  · exact fun _ _ _ h => h

theorem isSome_jsonAll (vs : List Toml) : (jsonAll vs).isSome ↔ ∀ v ∈ vs, (json v).isSome := by
  induction vs with
  | nil => simp [jsonAll]
  | cons v vs ih =>
      rw [List.forall_mem_cons, ← ih, jsonAll]
      cases json v <;> cases jsonAll vs <;> simp

theorem isSome_jsonTable (t : Table Toml) :
    (jsonTable t).isSome ↔ ∀ k, (json (t.value k)).isSome := by
  obtain ⟨keys, _, value⟩ := t
  rw [jsonTable, Sequence.isSome_mapM]
  simp only [Option.isSome_map, List.mem_attach, true_implies]

theorem isSome_json {v : Toml} : v.json.isSome ↔ Dumps v := by
  induction v using Toml.induction with
  | str s => exact ⟨fun _ => .str s, fun _ => rfl⟩
  | float repr => exact ⟨fun _ => .float repr, fun _ => rfl⟩
  | bool b => exact ⟨fun _ => .bool b, fun _ => rfl⟩
  | datetime iso => exact ⟨nofun, nofun⟩
  | int n =>
      have hjson : (json (int n)).isSome ↔
          (Nat.toDigits 10 n.natAbs).length ≤ maxStrDigits := by
        rw [json]
        split <;> simp [*]
      rw [hjson]
      exact ⟨.int, fun h => by cases h; assumption⟩
  | arr items ih =>
      rw [json, Option.isSome_map, isSome_jsonAll]
      constructor
      · exact fun h => .arr fun v hv => (ih v hv).mp (h v hv)
      · intro h v hv
        cases h with
        | arr h => exact (ih v hv).mpr (h v hv)
  | table t ih =>
      rw [json, Option.isSome_map, isSome_jsonTable]
      constructor
      · exact fun h => .table fun k => (ih k).mp (h k)
      · intro h k
        cases h with
        | table h => exact (ih k).mpr (h k)

end Toml

end Aicv.Python
