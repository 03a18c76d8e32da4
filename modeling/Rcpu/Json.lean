import Mathlib.Data.List.Basic

/-!
# JSON values

The values that calls return, `univalue.h`.  An object keeps its keys in the order in which they came;
`pushKV` puts a new value in the place of an old one.  Numbers are kept as their text.
-/

namespace Rcpu.Json

inductive UniValue where
  | null
  | bool (val : Bool)
  | num (text : String)
  | str (val : String)
  | arr (values : List UniValue)
  | obj (entries : List (String × UniValue))

def UniValue.ofInt (n : Int) : UniValue := .num (toString n)

abbrev Entries := List (String × UniValue)

def pushKV : Entries → String → UniValue → Entries
  | [], key, val => [(key, val)]
  | e :: entries, key, val =>
    if e.1 = key then (key, val) :: entries else e :: pushKV entries key val

def pushKVs (entries more : Entries) : Entries :=
  more.foldl (fun acc e => pushKV acc e.1 e.2) entries

/-- `operator[]` with a key -/
def get : Entries → String → UniValue
  | [], _ => .null
  | e :: entries, key => if e.1 = key then e.2 else get entries key

variable {entries more : Entries} {key key' : String} {val : UniValue}

@[simp] theorem get_pushKV_self : get (pushKV entries key val) key = val := by
  induction entries with
  | nil => simp [pushKV, get]
  | cons e entries ih =>
    by_cases he : e.1 = key
    · simp [pushKV, get, he]
    · simp [pushKV, get, he, ih]

theorem get_pushKV_of_ne (h : key' ≠ key) : get (pushKV entries key val) key' = get entries key' := by
  induction entries with
  | nil => simp [pushKV, get, h.symm]
  | cons e entries ih =>
    by_cases he : e.1 = key
    · simp [pushKV, get, he, h.symm]
    · simp [pushKV, get, he, ih]

theorem pushKVs_append (entries more last : Entries) :
    pushKVs entries (more ++ last) = pushKVs (pushKVs entries more) last := List.foldl_append

theorem get_pushKVs_of_notMem (h : key ∉ more.map Prod.fst) :
    get (pushKVs entries more) key = get entries key := by
  induction more generalizing entries with
  | nil => rfl
  | cons e more ih =>
    rw [List.map_cons, List.mem_cons, not_or] at h
    exact (ih h.2).trans (get_pushKV_of_ne h.1)

def hexStr (bytes : List UInt8) : String :=
  .ofList (bytes.flatMap fun b => [Nat.digitChar (b.toNat / 16), Nat.digitChar (b.toNat % 16)])

end Rcpu.Json
