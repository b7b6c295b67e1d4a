import JobScripts.Lib.Dumps

/-!
# The canonical encoding of payloads

`encode_payload` of `core/payloads/objects.py` writes finite JSON with sorted keys and without spaces, in ASCII. An
object is as long as its members, each with its name in quotes, a colon and what separates it from the next, and one
brace more (`length_encodePayload_dict`).
-/

namespace JobScripts.Payloads

open Lib Lib.Loads Lib.Dumps

/-! ## Encoding -/

/-- What `json.dumps` writes of the floats that are not finite. -/
def notFinite : List Text := [codes "NaN", codes "Infinity", codes "-Infinity"]

mutual

/-- Every float of a value is finite. -/
def isFinite : Value → Bool
  | .float t => t ∉ notFinite
  | .list vs => itemsFinite vs
  | .dict ms => membersFinite ms
  | _ => true

/-- `isFinite` for the items of a list. -/
def itemsFinite : List Value → Bool
  | [] => true
  | v :: rest => isFinite v && itemsFinite rest

/-- `isFinite` for the members of an object. -/
def membersFinite : List (Text × Value) → Bool
  | [] => true
  | (_, v) :: rest => isFinite v && membersFinite rest

end

/-- `encode_payload`, which raises `PayloadUnavailable` where a float is not finite. -/
def encodePayload (v : Value) : Option Text := if isFinite v then some (write .compact (sorted v)) else none

/-- The length of the encoding, where there is one. -/
def encodedLength (v : Value) : ℕ := (write .compact (sorted v)).length

/-! ## Lengths -/

/-- The members of an object have finite values if each has one. -/
theorem membersFinite_iff {ms : List (Text × Value)} : membersFinite ms = true ↔ ∀ m ∈ ms, isFinite m.2 = true := by
  induction ms with
  | nil => exact iff_of_true rfl fun m hm => absurd hm List.not_mem_nil
  | cons m ms ih =>
    obtain ⟨k, v⟩ := m
    unfold membersFinite
    rw [Bool.and_eq_true, ih, List.forall_mem_cons]

/-- What a name adds to an object: its quotes, a colon, and a comma or a brace. -/
def nameLength (name : Text) : ℕ := (quoted name).length + 2

/-- The members after the first. -/
theorem length_writeMembers (ms : List (Text × Value)) :
    (writeMembers .compact ms).length = (ms.map fun m => nameLength m.1 + (write .compact m.2).length).sum + 1 := by
  induction ms with
  | nil => rfl
  | cons m ms ih =>
    obtain ⟨k, v⟩ := m
    have hcons : writeMembers .compact ((k, v) :: ms) =
        0x2C :: (quoted k ++ 0x3A :: (write .compact v ++ writeMembers .compact ms)) := rfl
    have hname : nameLength k = (quoted k).length + 2 := rfl
    rw [hcons, List.map_cons, List.sum_cons, List.length_cons, List.length_append, List.length_cons,
      List.length_append, ih]
    dsimp only
    omega

/-- An object, with a brace more than its members have. -/
theorem length_write_dict {ms : List (Text × Value)} (hne : ms ≠ []) :
    (write .compact (.dict ms)).length = (ms.map fun m => nameLength m.1 + (write .compact m.2).length).sum + 1 := by
  cases ms with
  | nil => exact absurd rfl hne
  | cons m ms =>
    obtain ⟨k, v⟩ := m
    -- The first member is written like the others, with a brace for the comma.
    have hlength : (write .compact (.dict ((k, v) :: ms))).length =
        (writeMembers .compact ((k, v) :: ms)).length := rfl
    rw [hlength, length_writeMembers]

/-- The encoding of an object has the encodings of its members in it, whatever their order. -/
theorem encodedLength_dict {ms : List (Text × Value)} (hne : ms ≠ []) :
    encodedLength (.dict ms) = (ms.map fun m => nameLength m.1 + encodedLength m.2).sum + 1 := by
  have hperm := List.perm_insertionSort (fun m n : Text × Value => m.1 ≤ n.1) (sortedMembers ms)
  have hne' : (sortedMembers ms).insertionSort (fun m n => m.1 ≤ n.1) ≠ [] := by
    intro hnil
    rw [hnil, sortedMembers_eq] at hperm
    exact hne (List.map_eq_nil_iff.mp hperm.nil_eq.symm)
  have hsorted : encodedLength (.dict ms) =
      (write .compact (.dict ((sortedMembers ms).insertionSort fun m n => m.1 ≤ n.1))).length := rfl
  rw [hsorted, length_write_dict hne', (hperm.map _).sum_eq, sortedMembers_eq, List.map_map]
  rfl

end JobScripts.Payloads
