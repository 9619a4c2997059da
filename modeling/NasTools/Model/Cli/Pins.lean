import NasTools.Lib.Machine
import NasTools.Lib.Text
import NasTools.Proofs.Memory

/-!
The two pin files of a device: their text, their readers, and syncs that may end inside a write.
-/

namespace NasTools

/-- The text of a pin: the sequence in decimal, and the hash in hexadecimal. -/
def pinText (seq : UInt64) (hash : Digest) : List Char :=
  Nat.toDigits 10 seq.toNat ++ ' ' :: (toHex hash.bytes ++ ['\n'])

/-- The hash of a pin: exactly 64 bytes of text, two digits for each byte. -/
def parseHash (word : List Char) : Option Digest := do
  guard ((word.map Char.utf8Size).sum = 64)
  let bytes ← Text.parseHexBytes word
  FixedBytes.ofBytes? 32 bytes

/-- The pin of `state/peer-seq`; a text without a hash is a pin without one. -/
def readPin (text : List Char) : Option Device.Pin := do
  let (first, rest) ← Text.nextWord text
  let seq ← Text.parseU64 first
  let recordHash := do
    let (second, _) ← Text.nextWord rest
    parseHash second
  return ⟨seq, recordHash⟩

/-- The pin of `state/peer-checkpoint`; a text without a hash is no pin. -/
def readCpPin (text : List Char) : Option (UInt64 × Digest) := do
  let (first, rest) ← Text.nextWord text
  let seq ← Text.parseU64 first
  let (second, _) ← Text.nextWord rest
  let hash ← parseHash second
  return (seq, hash)

/-- The two pin files, each of which may be missing. -/
structure PinFiles where
  pin : Option (List Char)
  cp : Option (List Char)

/-- The writing of a pin that ends early: how much of its text is in the file by then. -/
inductive Torn where
  | pin (seq : UInt64) (hash : Digest) (kept : Nat)
  | cp (seq : UInt64) (hash : Digest) (kept : Nat)

/-- The exchange there would have been, had the writing come to its end. -/
def Torn.whole : Torn → Script.Exchange Op.Answer
  | .pin seq hash _ => ⟨.writePin seq hash, .ok ()⟩
  | .cp seq hash _ => ⟨.writeCpPin seq hash, .ok ()⟩

namespace PinFiles

/-- What a device remembers when it reads these files. -/
def memory (f : PinFiles) : Memory := ⟨f.pin.bind readPin, f.cp.bind readCpPin⟩

end PinFiles

/--
The pin files of a device, and every sequence that was written into them.

Those written to the end are told apart from those whose writing was only begun.
-/
structure PinState where
  files : PinFiles
  pins : List UInt64
  cpPins : List UInt64
  begun : List UInt64
  cpBegun : List UInt64

namespace PinState

/-- What an exchange leaves: a write that succeeds replaces one of the files. -/
def hear (s : PinState) : Script.Exchange Op.Answer → PinState
  | ⟨.writePin seq hash, .ok ()⟩ => { s with
      files := { s.files with pin := some (pinText seq hash) }
      pins := seq :: s.pins
      begun := seq :: s.begun }
  | ⟨.writeCpPin seq hash, .ok ()⟩ => { s with
      files := { s.files with cp := some (pinText seq hash) }
      cpPins := seq :: s.cpPins
      cpBegun := seq :: s.cpBegun }
  -- A write that fails before it touches its file leaves that as it was.
  | _ => s

/-- What a conversation leaves. -/
def heard (s : PinState) (said : Conversation) : PinState := said.foldl hear s

/--
What a write that ends early leaves: the file is truncated first, and its bytes follow in order.
-/
def tear (s : PinState) : Torn → PinState
  | .pin seq hash kept => { s with
      files := { s.files with pin := some ((pinText seq hash).take kept) }
      begun := seq :: s.begun }
  | .cp seq hash kept => { s with
      files := { s.files with cp := some ((pinText seq hash).take kept) }
      cpBegun := seq :: s.cpBegun }

end PinState

variable [Crypto]

/-- One sync as far as it came: what was said, and the write it ended inside, if any. -/
structure Session where
  device : Device
  opts : SyncOpts
  said : Conversation
  torn : Option Torn

namespace PinState

/-- What a sync leaves, however far it came. -/
def step (s : PinState) (e : Session) : PinState := e.torn.toList.foldl tear (s.heard e.said)

/--
Whether a sync can come that far.

It starts from what the files hold, and might have gone on from where it ended; the rungs it is
shown are among those seen.
-/
def Takes (seen : Set Checkpoint) (s : PinState) (e : Session) : Prop :=
  e.device.memory = s.files.memory ∧
    ∃ rest outcome, (sync e.device e.opts).Plays (e.said ++ (e.torn.map Torn.whole).toList ++ rest)
      outcome ∧ ∀ c, Shown (e.said ++ (e.torn.map Torn.whole).toList ++ rest) c → c ∈ seen

/-- A device that has no pin files yet. -/
def fresh : PinState := ⟨⟨none, none⟩, [], [], [], []⟩

end PinState

/-- Both pins are set, and at or above the given sequences. -/
structure Memory.Bounds (m : Memory) (pins cpPins : List UInt64) : Prop where
  pin : ∀ seq ∈ pins, ∃ p, m.pin = some p ∧ seq ≤ p.seq
  cpPin : ∀ seq ∈ cpPins, ∃ c, m.cpPin = some c ∧ seq ≤ c.1

namespace PinState

/--
Whatever the next sync is answered, it refuses, or it starts from pins at the floor.

They are no smaller than anything written to the end, and a partial file does not make them smaller
than what was being written.
-/
def FloorKept (s : PinState) : Prop :=
  ∀ (d : Device) (o : SyncOpts) (said : Conversation) (outcome : Except Exit Unit),
    d.memory = s.files.memory → (sync d o).Plays said outcome →
      (∃ stage text, outcome = .error (.refused stage text)) ∨
        (d.memory.Bounds s.pins s.cpPins ∧ d.memory.Bounds s.begun s.cpBegun)

end PinState

/--
A write that ends early, but not too early.

The digits of the sequence are all in the file, and for a rung the hash as well.
-/
def Torn.Sparing : Torn → Prop
  | .pin seq _ kept => (Nat.toDigits 10 seq.toNat).length ≤ kept
  | .cp seq _ kept => (Nat.toDigits 10 seq.toNat).length + 65 ≤ kept

/-- A sync that does not end inside a write, or does not end too early in it. -/
def Session.Sparing (e : Session) : Prop := ∀ torn, e.torn = some torn → torn.Sparing

/-- The syncs of one device as a machine. -/
def pinMachine : Machine PinState Session Unit where
  step s e := ((), s.step e)

end NasTools
