import NasTools.Lib.Script
import NasTools.Model.Cli.Rules
import NasTools.Model.Transfer.Session

/-! A sync in progress: the peer, the device's own disk, and a connection that may be lost. -/

namespace NasTools

variable [Crypto]

/-- Both ends of a connection. -/
structure Scene where
  peer : Peer
  device : Device

/-- What a sync asks away from the peer that leaves nothing behind. -/
def Aside : Op → Prop
  | .dial _ | .call .witness _ | .nonce | .rootNonce => True
  | _ => False

/--
What one exchange does to both ends.

A request may be lost before the peer has carried it out, or its answer after; the blobs a device
stores are taken from a set, so that a run can say which they are.
-/
inductive Heard (blobs : Set Bytes) (subject : String) :
    Scene → Script.Exchange Op.Answer → Scene → Prop where
  | answered {p : Peer} {d : Device} (v : Visit) (mine : v.subject = subject) (reply : Response)
      (replied : (handleAt p v.disk v.subject v.now v.req).1 = some reply) :
      Heard blobs subject ⟨p, d⟩ ⟨.call .peer v.req, .ok reply⟩ ⟨p.visit v, d⟩
  -- The peer did its part, and the answer was lost.
  | unanswered {p : Peer} {d : Device} (v : Visit) (mine : v.subject = subject) (text : String) :
      Heard blobs subject ⟨p, d⟩ ⟨.call .peer v.req, .error text⟩ ⟨p.visit v, d⟩
  -- The peer never got the request.
  | unheard {s : Scene} (req : Request) (text : String) :
      Heard blobs subject s ⟨.call .peer req, .error text⟩ s
  -- How a write ends, and what it leaves, is for the store to say.
  | kept {p : Peer} {d : Device} (disk : Disk) (now : Timestamp) (data : Bytes)
    (known : data ∈ blobs) :
      Heard blobs subject ⟨p, d⟩
        ⟨.keepBlob data, (d.blobs.put disk now data).1.mapError StoreError.display⟩
        ⟨p, { d with blobs := (d.blobs.put disk now data).2 }⟩
  | pinned {p : Peer} {d : Device} (seq : UInt64) (hash : Digest) :
      Heard blobs subject ⟨p, d⟩ ⟨.writePin seq hash, .ok ()⟩ ⟨p,
        { d with pin := some ⟨seq, some hash⟩ }⟩
  | unpinned {s : Scene} (seq : UInt64) (hash : Digest) (text : String) :
      Heard blobs subject s ⟨.writePin seq hash, .error text⟩ s
  | cpPinned {p : Peer} {d : Device} (seq : UInt64) (hash : Digest) :
      Heard blobs subject ⟨p, d⟩ ⟨.writeCpPin seq hash, .ok ()⟩ ⟨p,
        { d with cpPin := some (seq, hash) }⟩
  | cpUnpinned {s : Scene} (seq : UInt64) (hash : Digest) (text : String) :
      Heard blobs subject s ⟨.writeCpPin seq hash, .error text⟩ s
  -- What leaves nothing behind may be answered with anything.
  | aside {s : Scene} (op : Op) (answer : op.Answer) (beside : Aside op) :
      Heard blobs subject s ⟨op, answer⟩ s

/-- A question that publishes no record. -/
def NotRecord : Op → Prop
  | .call _ (.publishSlot _) => False
  | _ => True

/-- What a sync never changes of its own device: its secrets, its head, and every blob it held. -/
structure Device.Kept (d d' : Device) : Prop where
  ns : d'.ns = d.ns
  mode : d'.mode = d.mode
  slotIdentity : d'.slotIdentity = d.slotIdentity
  head : d'.head = d.head
  keys : d'.keys = d.keys
  blobs : d.blobs.Grows d'.blobs

/-- A device keeps what it has. -/
theorem Device.Kept.refl (d : Device) : d.Kept d := ⟨rfl, rfl, rfl, rfl, rfl, .refl _⟩

/-- What is kept twice is kept. -/
theorem Device.Kept.trans {a b c : Device} (first : a.Kept b) (second : b.Kept c) : a.Kept c where
  -- Each part is the same across both steps, and the blob store grows at each.
  ns := second.ns.trans first.ns
  mode := second.mode.trans first.mode
  slotIdentity := second.slotIdentity.trans first.slotIdentity
  head := second.head.trans first.head
  keys := second.keys.trans first.keys
  blobs := first.blobs.trans second.blobs

/-- Every blob a device can read is among the known ones. -/
def Device.Within (d : Device) (blobs : Set Bytes) : Prop :=
  ∀ addr data, d.blobs.get addr = .ok data → data ∈ blobs

section

variable {blobs : Set Bytes} {subject : String} {s t : Scene} {x : Script.Exchange Op.Answer}

/-- Whatever is exchanged, the device keeps what a sync never changes. -/
theorem Heard.device (heard : Heard blobs subject s x t) : s.device.Kept t.device := by
  -- Only keeping a blob touches the device, and it adds to the store.
  cases heard with
  | kept disk now data known =>
    exact ⟨rfl, rfl, rfl, rfl, rfl, BlobStore.put_grows⟩
  | answered | unanswered | unheard | pinned | unpinned | cpPinned | cpUnpinned | aside =>
    exact ⟨rfl, rfl, rfl, rfl, rfl, .refl _⟩

/-- Whatever is exchanged, nothing unknown gets into the store. -/
theorem Heard.within (heard : Heard blobs subject s x t) (within : s.device.Within blobs) :
    t.device.Within blobs := by
  -- Only keeping a blob touches the store, and that blob is among the known ones.
  cases heard with
  | kept disk now data known =>
    intro addr found held
    rcases BlobStore.get_of_put held with before | rfl
    · exact within addr found before
    · exact known
  | answered | unanswered | unheard | pinned | unpinned | cpPinned | cpUnpinned | aside =>
    exact within

/-- Whatever is exchanged, the peer is as it was or has been asked for something. -/
theorem Heard.peer_cases (heard : Heard blobs subject s x t) :
    t.peer = s.peer ∨ ∃ v, x.1 = .call .peer v.req ∧ t.peer = s.peer.visit v := by
  cases heard with
  | answered v => exact .inr ⟨v, rfl, rfl⟩
  | unanswered v => exact .inr ⟨v, rfl, rfl⟩
  | unheard | kept | pinned | unpinned | cpPinned | cpUnpinned | aside => exact .inl rfl

end

/-- A world in which nothing is lost, every disk takes everything, and no time passes. -/
def serve (subject : String) (s : Scene) : (op : Op) → op.Answer × Scene
  | .call .peer req =>
    ((handleAt s.peer (.ok ()) subject 0 req).1.elim (.error "peer: connection closed") .ok,
      { s with peer := s.peer.visit ⟨subject, .ok (), 0, req⟩ })
  | .keepBlob data =>
    ((s.device.blobs.put (.ok ()) 0 data).1.mapError StoreError.display,
      { s with device := { s.device with blobs := (s.device.blobs.put (.ok ()) 0 data).2 } })
  | .writePin seq hash =>
    (.ok (), { s with device := { s.device with pin := some ⟨seq, some hash⟩ } })
  | .writeCpPin seq hash =>
    (.ok (), { s with device := { s.device with cpPin := some (seq, hash) } })
  | .dial _ => (.ok (), s)
  | .call .witness _ => (.error "no witness node", s)
  | .nonce => (.ok Digest.zero, s)
  | .rootNonce => (.ok (FixedBytes.zero _), s)

end NasTools
