import NasTools.Lib.OrderedMap
import NasTools.Model.Crypto.Sign

/-! Who may write: the map from writer ids back to verifying keys. -/

namespace NasTools

/-- Why a key is not added to a roster. -/
inductive RosterError where
  | badKeyLength (got : Nat)
  | duplicate (id : Digest)
deriving DecidableEq

variable [Crypto]

/--
The keys permitted to write a slot, filed under their own ids.

The ids are derived from the keys, so a roster cannot file a key under another key's id.
-/
structure Roster where
  keys : OrdMap Digest Bytes
  filed : ∀ id vk, keys[id]? = some vk → keyId vk = id ∧ vk.length = verifyingKeyLen

namespace Roster

/-- A roster that admits nobody. -/
def empty : Roster := ⟨∅, by simp⟩

/-- The key filed under an id. -/
def get (r : Roster) (id : Digest) : Option Bytes := r.keys[id]?

/-- Whether an id is on the roster. -/
def contains (r : Roster) (id : Digest) : Bool := r.keys.contains id

/-- Filing a key of the right length under its own id keeps every key under its own id. -/
theorem filed_insert {keys : OrdMap Digest Bytes} {key : Bytes}
    (filed : ∀ id vk, keys[id]? = some vk → keyId vk = id ∧ vk.length = verifyingKeyLen)
    (length : key.length = verifyingKeyLen) (id : Digest) (vk : Bytes)
    (found : (keys.insert (keyId key) key)[id]? = some vk) :
    keyId vk = id ∧ vk.length = verifyingKeyLen := by
  -- The new key is filed under its own id, and the others are where they were.
  rw [Std.ExtTreeMap.getElem?_insert] at found
  by_cases same : keyId key = id
  · simp only [same, Std.ReflCmp.compare_self, if_true, Option.some.injEq] at found
    subst found
    exact ⟨same, length⟩
  · rw [if_neg (by simpa using same)] at found
    exact filed id vk found

/-- Add a verifying key under its derived id. -/
def add (r : Roster) (verifyingKey : Bytes) : Except RosterError Roster :=
  if length : verifyingKey.length = verifyingKeyLen then
    let id := keyId verifyingKey
    if r.contains id then .error (.duplicate id)
    else .ok ⟨r.keys.insert id verifyingKey, filed_insert r.filed length⟩
  else .error (.badKeyLength verifyingKey.length)

/-- A key on the roster is filed under its own id. -/
theorem keyId_of_get {r : Roster} {id : Digest} {vk : Bytes} (found : r.get id = some vk) :
    keyId vk = id :=
  (r.filed id vk found).1

/-- Every key of one roster is on the other, under the same id. -/
def Extends (after before : Roster) : Prop :=
  ∀ id vk, before.get id = some vk → after.get id = some vk

/-- A roster extends itself. -/
theorem Extends.refl (r : Roster) : r.Extends r := fun _ _ found => found

/-- Growth composes. -/
theorem Extends.trans {a b c : Roster} (first : b.Extends a) (second : c.Extends b) : c.Extends a :=
  fun id vk found => second id vk (first id vk found)

/-- Adding a key leaves every key already there in place. -/
theorem add_extends {r r' : Roster} {key : Bytes} (added : r.add key = .ok r') : r'.Extends r := by
  -- The key is known already, or it is filed under a new id.
  unfold add at added
  split at added
  · dsimp only at added
    split at added
    · cases added
    · rename_i fresh
      cases added
      intro id vk found
      -- The new id was absent, so it cannot shadow an old one.
      have other : keyId key ≠ id := by
        intro same
        apply fresh
        rw [contains, same, Std.ExtTreeMap.contains_eq_isSome_getElem?]
        simp only [get] at found
        simp [found]
      simpa [get, Std.ExtTreeMap.getElem?_insert, other] using found
  · cases added

/-- A key on a roster was there before the last one was added, or is that one. -/
theorem get_of_add {r r' : Roster} {key : Bytes} (added : r.add key = .ok r') {id : Digest}
    {vk : Bytes} (found : r'.get id = some vk) : vk = key ∨ r.get id = some vk := by
  -- What is found is the new key or was there before.
  unfold add at added
  split at added
  · dsimp only at added
    split at added
    · cases added
    · cases added
      rw [get, Std.ExtTreeMap.getElem?_insert] at found
      split at found
      · exact .inl (Option.some.inj found).symm
      · exact .inr found
  · cases added

end Roster

end NasTools
