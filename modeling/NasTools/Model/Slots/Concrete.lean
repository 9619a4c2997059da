import NasTools.Model.Crypto.Concrete
import NasTools.Model.Slots.Record
import NasTools.Model.Slots.Roster
import NasTools.Model.Slots.Witness

/-! Rosters, records and witnesses over the concrete primitives. -/

namespace NasTools.Concrete

/-- The roster of some keys, leaving out those that cannot be added. -/
def rosterOf (keys : List Bytes) : Roster :=
  keys.foldl (fun roster key => ((roster.add key).toOption).getD roster) Roster.empty

/-- The slot of a one-byte label. -/
def slot (label : UInt8) : SlotId := digest [label]

/-- The record a keypair signs in a slot. -/
def recordOf (seed : UInt8) (slotId : SlotId) (seq : UInt64) (root : Addr) (prev : Digest)
    (regime : Regime) : SlotRecord :=
  let unsigned : SlotRecord :=
    ⟨slotId, seq, root, FixedBytes.zero _, (identity seed).id, prev, regime, []⟩
  let message := framed .slot (expectFields unsigned.bodyFields)
  { unsigned with sig := signature (identity seed).verifyingKey message }

/-- The record a keypair signs in a slot, with a root named by one byte. -/
def recordIn (seed : UInt8) (slotId : SlotId) (seq : UInt64) (root : UInt8) (prev : Digest)
    (regime : Regime) : SlotRecord :=
  recordOf seed slotId seq (digest [root]) prev regime

/-- The record a keypair signs in the slot of a one-byte label. -/
def record (seed label : UInt8) (seq : UInt64) (root : UInt8) (prev : Digest) (regime : Regime) :
    SlotRecord :=
  recordIn seed (slot label) seq root prev regime

/-- The witness a keypair signs of a record in the slot of a one-byte label. -/
def witness (seed label : UInt8) (seq : UInt64) (recordHash prev : Digest) : Witness :=
  let message := framed .witness (witnessBody (slot label) seq recordHash prev 0)
  ⟨(identity seed).verifyingKey, slot label, seq, recordHash, prev, 0,
    signature (identity seed).verifyingKey message⟩

end NasTools.Concrete
