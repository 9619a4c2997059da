import NasTools.Lib.Fallible
import NasTools.Lib.OrderedSet
import NasTools.Model.Cli.Concrete
import NasTools.Model.Cli.Outbox

/-! What an authorised deletion takes away, compared with what its scope names. -/

namespace NasTools

/-- The keys a scope names, byte for byte. -/
def Scope.Names : Scope → Bytes → Prop
  | .wholeNamespace, _ => True
  | .withPrefix p, key => utf8 p <+: key
  | .object p, key => key = utf8 p

/-- A scope that may name more than one key. -/
def Scope.Coarse : Scope → Prop
  | .object _ => False
  | _ => True

/-- Every key a scope names is selected: text in front of a key reads as that text. -/
theorem Scope.selects_of_names {scope : Scope} {key : Bytes} (named : scope.Names key) :
    scope.selects key = true := by
  -- The key is text, so the lossy reading leaves it as it is.
  cases scope with
  | wholeNamespace => rfl
  | withPrefix p =>
    obtain ⟨rest, rfl⟩ := named
    simp only [selects, utf8, fromUtf8Lossy_append, List.isPrefixOf_iff_prefix]
    exact List.prefix_append _ _
  | object p =>
    obtain rfl : key = utf8 p := named
    have text : fromUtf8Lossy (utf8 p) = p.toList := fromUtf8Lossy_text p
    simp [selects, text]

/-- A live object of a bucket has a chunk at an address. -/
def BucketManifest.References (bucket : BucketManifest) (key : Bytes) (a : Addr) : Prop :=
  ∃ m, bucket.live key = some m ∧ a ∈ m.chunks.map ChunkRef.addr

/-- The addresses handed over are those of the live objects selected. -/
theorem BucketManifest.mem_addrsIn {bucket : BucketManifest} {scope : Scope} {a : Addr} :
    a ∈ bucket.addrsIn scope ↔ ∃ key, scope.selects key = true ∧ bucket.References key a := by
  -- The keys are listed, and of each that is selected the addresses.
  simp only [addrsIn, List.mem_flatMap, Prod.exists,
    Std.ExtTreeMap.mem_toList_iff_getElem?_eq_some]
  constructor
  · intro listed
    obtain ⟨key, e, found, member⟩ := listed
    split at member
    · rename_i selected
      cases live : e.object with
      | none => simp [KeyObject.addrs, live] at member
      | some m =>
        simp only [KeyObject.addrs, live] at member
        have held : bucket.live key = some m := by simp [BucketManifest.live, get, found, live]
        exact ⟨key, selected, m, held, member⟩
    · cases member
  · intro named
    obtain ⟨key, selected, m, live, member⟩ := named
    obtain ⟨e, found, object⟩ := Option.bind_eq_some_iff.mp live
    refine ⟨key, e, found, ?_⟩
    rw [if_pos selected, KeyObject.addrs, object]
    exact member

section

variable [Crypto]

namespace Peer

variable {p : Peer}

/-- Which addresses a holder leases. -/
def Leases (p : Peer) (holder : Digest) (a : Addr) : Prop :=
  ∃ set seen, p.leases[holder]? = some (set, seen) ∧ a ∈ set

/-- Releasing takes exactly the listed addresses from the one holder, and leaves the floor. -/
theorem releaseLease_spec (disk : Disk) (holder : Digest) (addrs : List Addr) (now : Timestamp) :
    (p.releaseLease disk holder addrs now).2.retention = p.retention ∧
      ∀ h a, (p.releaseLease disk holder addrs now).2.Leases h a ↔
        p.Leases h a ∧ (h = holder → a ∉ addrs) := by
  -- Only the holder's own leases change, and only by the addresses that are released.
  unfold releaseLease
  cases found : p.leases[holder]? with
  | none =>
    refine ⟨rfl, ?_⟩
    intro h a
    constructor
    · intro held
      refine ⟨held, ?_⟩
      intro same
      obtain ⟨set, seen, entry, _⟩ := held
      rw [same] at entry
      rw [found] at entry
      cases entry
    · exact fun held => held.1
  | some entry =>
    obtain ⟨set, seen⟩ := entry
    refine ⟨rfl, ?_⟩
    intro h a
    unfold Leases
    dsimp only
    by_cases same : holder = h
    · subst same
      simp only [Std.ExtTreeMap.getElem?_insert_self, found, Option.some.injEq, Prod.mk.injEq]
      constructor
      · intro kept
        obtain ⟨_, _, ⟨rfl, rfl⟩, kept⟩ := kept
        obtain ⟨held, off⟩ := OrdSet.mem_eraseAll.mp kept
        exact ⟨⟨set, seen, ⟨rfl, rfl⟩, held⟩, fun _ => off⟩
      · intro kept
        obtain ⟨⟨_, _, ⟨rfl, rfl⟩, held⟩, off⟩ := kept
        exact ⟨_, now, ⟨rfl, rfl⟩, OrdSet.mem_eraseAll.mpr ⟨held, off trivial⟩⟩
    · have other : h ≠ holder := Ne.symm same
      simp [Std.ExtTreeMap.getElem?_insert, same, other]

/-- Forgetting takes at most the listed addresses from the floor, all of them when it succeeds. -/
theorem forgetRetention_spec (disk : Disk) (addrs : List Addr) (proof : DeleteExecution) :
    (p.forgetRetention disk addrs proof).2.leases = p.leases ∧
      (∀ a ∈ p.retention, a ∉ (p.forgetRetention disk addrs proof).2.retention → a ∈ addrs) ∧
      ((p.forgetRetention disk addrs proof).1 = .ok () →
        ∀ a ∈ addrs, a ∉ (p.forgetRetention disk addrs proof).2.retention) := by
  -- Only the addresses that are given leave the floor.
  unfold forgetRetention persistRetention
  split
  · exact ⟨rfl, fun a held gone => absurd held gone, fun done => nomatch done⟩
  split
  · exact ⟨rfl, fun a held gone => absurd held gone, fun done => nomatch done⟩
  · refine ⟨rfl, ?_, ?_⟩
    · intro a held gone
      by_contra off
      exact gone (OrdSet.mem_eraseAll.mpr ⟨held, off⟩)
    · intro _ a listed kept
      exact (OrdSet.mem_eraseAll.mp kept).2 listed

end Peer

namespace Site

variable {x : Site} {bucket : BucketManifest} {scope : Scope}

/-- An address lost a lease or the protection of the floor. -/
def Lost (before after : Peer) (a : Addr) : Prop :=
  (a ∈ before.retention ∧ a ∉ after.retention) ∨
    ∃ holder, before.Leases holder a ∧ ¬after.Leases holder a

/--
What a forget takes: addresses of the scope only, all leases of them, and on success the floor.
-/
theorem applyClientForget_spec (published : x.loadPublishedHead = .ok bucket) (scope : Scope)
    (p : Peer) (leases floor : Disk) (now : Timestamp) (proof : DeleteExecution) :
    let result := x.applyClientForget p leases floor now scope proof
    (∀ a, Lost p result.2 a → a ∈ bucket.addrsIn scope) ∧
      (∀ a ∈ bucket.addrsIn scope, ¬result.2.Leases (Peer.holderId "default") a) ∧
      ∀ addrs, result.1 = .ok addrs →
        addrs = bucket.addrsIn scope ∧ ∀ a ∈ addrs, a ∉ result.2.retention := by
  -- The leases are released first, and then the floor is asked for.
  intro result
  let released := (p.releaseLease leases (Peer.holderId "default") (bucket.addrsIn scope) now).2
  obtain ⟨sameFloor, lease⟩ := Peer.releaseLease_spec (p := p) leases (Peer.holderId "default")
    (bucket.addrsIn scope) now
  obtain ⟨sameLeases, took, emptied⟩ := Peer.forgetRetention_spec (p := released) floor
    (bucket.addrsIn scope) proof
  -- Whatever the forget answers, it is the state it leaves that is returned.
  have state : result.2 = (released.forgetRetention floor (bucket.addrsIn scope) proof).2 := by
    simp only [result, applyClientForget, addrsForScope, published, released]
    split
    · rename_i refused
      rw [refused]
    · rename_i done
      rw [done]
  have leased : ∀ h a, result.2.Leases h a ↔ released.Leases h a := by
    intro h a
    rw [state]
    unfold Peer.Leases
    rw [sameLeases]
  refine ⟨?_, ?_, ?_⟩
  · intro a lost
    rcases lost with ⟨held, gone⟩ | ⟨holder, held, gone⟩
    · rw [state] at gone
      exact took a (by rw [sameFloor]; exact held) gone
    · rw [leased, lease] at gone
      by_contra off
      exact gone ⟨held, fun _ => off⟩
  · intro a listed held
    rw [leased, lease] at held
    exact held.2 rfl listed
  · intro addrs done
    have succeeded : (released.forgetRetention floor (bucket.addrsIn scope) proof).1 = .ok () ∧
        addrs = bucket.addrsIn scope := by
      simp only [result, applyClientForget, addrsForScope, published] at done
      split at done
      · cases done
      · rename_i forgot
        exact ⟨by rw [forgot], (Except.ok.inj done).symm⟩
    rw [state, succeeded.2]
    exact ⟨rfl, emptied succeeded.1⟩

/--
A deletion stays inside its scope, whichever peer it is taken to and whatever proof is shown.

Nothing a live object outside the scope refers to loses a lease or the floor, and where the scope is
a prefix or the whole namespace, everything only live objects inside it refer to leaves the floor.
-/
def StaysInside (x : Site) (bucket : BucketManifest) (scope : Scope) : Prop :=
  ∀ p leases floor now proof, let result := x.applyClientForget p leases floor now scope proof
    (∀ a, Lost p result.2 a → ∀ key, ¬scope.Names key → ¬bucket.References key a) ∧
      ∀ addrs, result.1 = .ok addrs → scope.Coarse →
        ∀ a, (∃ key, bucket.References key a) → (∀ key, bucket.References key a → scope.Names key) →
          a ∈ addrs ∧ a ∉ result.2.retention

/-- What is handed over when a deletion stays inside: nothing an object outside refers to. -/
theorem outside_of_staysInside (published : x.loadPublishedHead = .ok bucket)
    (stays : x.StaysInside bucket scope) {a : Addr} (listed : a ∈ bucket.addrsIn scope)
    {key : Bytes} (outside : ¬scope.Names key) : ¬bucket.References key a := by
  -- A peer that leases the address is there to lose it, whatever the proof is worth.
  let p : Peer := { Peer.new .e2ee .content .honest with
    leases := (∅ : OrdMap Digest (OrdSet Addr × Timestamp)).insert (Peer.holderId "default")
      ((∅ : OrdSet Addr).insert a, 0) }
  have held : p.Leases (Peer.holderId "default") a :=
    ⟨_, 0, Std.ExtTreeMap.getElem?_insert_self, by simp⟩
  let proof : DeleteExecution := ⟨Digest.zero, [], [], []⟩
  obtain ⟨_, gone, _⟩ :=
    applyClientForget_spec published scope p (.ok ()) (.ok ()) 0 proof
  have lost : Lost p (x.applyClientForget p (.ok ()) (.ok ()) 0 scope proof).2 a :=
    .inr ⟨Peer.holderId "default", held, gone a listed⟩
  exact (stays p (.ok ()) (.ok ()) 0 proof).1 a lost key outside

/--
A deletion stays inside its scope exactly when nothing outside shares or mimics what is inside.

Shared is a chunk address that a live object inside and one outside both refer to; a mimic is a key
outside the scope whose bytes, read as text, are nevertheless selected, with a chunk to lose.
-/
theorem stays_inside_iff (x : Site) (bucket : BucketManifest) (scope : Scope)
    (published : x.loadPublishedHead = .ok bucket) :
    x.StaysInside bucket scope ↔
      (∀ inside outside a, scope.Names inside → ¬scope.Names outside →
        bucket.References inside a → ¬bucket.References outside a) ∧
      ∀ outside a, ¬scope.Names outside → scope.selects outside = true →
        ¬bucket.References outside a := by
  -- What is handed over are the addresses of the keys that are selected.
  constructor
  · intro stays
    refine ⟨?_, ?_⟩
    · intro inside outside a named notNamed refers
      have listed := BucketManifest.mem_addrsIn.mpr ⟨inside, Scope.selects_of_names named, refers⟩
      exact outside_of_staysInside published stays listed notNamed
    · intro outside a notNamed selected refers
      have listed := BucketManifest.mem_addrsIn.mpr ⟨outside, selected, refers⟩
      exact outside_of_staysInside published stays listed notNamed refers
  · intro conditions p leases floor now proof
    obtain ⟨apart, noMimic⟩ := conditions
    obtain ⟨within, _, done⟩ :=
      applyClientForget_spec published scope p leases floor now proof
    refine ⟨?_, ?_⟩
    · intro a lost key outside refers
      obtain ⟨selectedKey, selected, owns⟩ := BucketManifest.mem_addrsIn.mp (within a lost)
      -- The selected object is inside, or it is a mimic with a chunk.
      by_cases named : scope.Names selectedKey
      · exact apart selectedKey key a named outside owns refers
      · exact noMimic selectedKey a named selected owns
    · rintro addrs succeeded _ a ⟨key, refers⟩ onlyInside
      obtain ⟨rfl, emptied⟩ := done addrs succeeded
      have listed := BucketManifest.mem_addrsIn.mpr
        ⟨key, Scope.selects_of_names (onlyInside key refers), refers⟩
      exact ⟨listed, emptied a listed⟩

end Site

end

section

open Concrete

/-- The manifest of a file of one chunk. -/
def oneChunk : Manifest :=
  ⟨manifestVersion, .convergent, .none, .file, [], 5,
    [⟨digest [4], FixedBytes.zero _, digest [5], 5⟩], []⟩

/-- Two keys under which the same content was stored. -/
def sharedBucket : BucketManifest :=
  ⟨((∅ : OrdMap Bytes KeyObject).insert (utf8 "a") ⟨1, Digest.zero, some oneChunk⟩).insert
    (utf8 "b") ⟨1, Digest.zero, some oneChunk⟩⟩

/-- A device that has published that bucket. -/
def sharingSite : Site := (homeSite.savePublished calm sharedBucket).2

/-- What that device reads back is one object under each of the two keys. -/
theorem sharingSite_publishes : ∃ bucket, sharingSite.loadPublishedHead = .ok bucket ∧
    bucket.live (utf8 "a") = some oneChunk ∧ bucket.live (utf8 "b") = some oneChunk := by
  -- The published head is evaluated.
  have loaded : sharingSite.loadPublishedHead.toOption.map
      (fun bucket => (bucket.live (utf8 "a"), bucket.live (utf8 "b"))) =
      some (some oneChunk, some oneChunk) := by decide +kernel
  obtain ⟨bucket, read, same⟩ := Option.map_eq_some_iff.mp loaded
  rw [Prod.mk.injEq] at same
  refine ⟨bucket, ?_, same⟩
  cases result : sharingSite.loadPublishedHead with
  | error e => simp [result, Except.toOption] at read
  | ok found => simpa [result, Except.toOption] using read

/-- Deleting one of two objects with the same content takes the other's chunk as well. -/
theorem deletion_reaches_a_shared_chunk :
    ¬∀ (x : Site) (bucket : BucketManifest) (scope : Scope), x.loadPublishedHead = .ok bucket →
      x.StaysInside bucket scope := by
  -- The chunk is listed for one key, and the other key needs it.
  intro always
  obtain ⟨bucket, published, first, second⟩ := sharingSite_publishes
  have inside : bucket.References (utf8 "a") (digest [4]) := ⟨oneChunk, first, by decide⟩
  have outside : bucket.References (utf8 "b") (digest [4]) := ⟨oneChunk, second, by decide⟩
  have named : (Scope.object "a").Names (utf8 "a") := rfl
  have listed := BucketManifest.mem_addrsIn.mpr ⟨utf8 "a", Scope.selects_of_names named, inside⟩
  have other : ¬(Scope.object "a").Names (utf8 "b") := by
    show utf8 "b" ≠ utf8 "a"
    decide
  exact Site.outside_of_staysInside published (always sharingSite bucket (.object "a") published)
    listed other outside

/-- A file that shares a chunk with another one, and a file that shares none. -/
def twoChunks : Manifest :=
  ⟨manifestVersion, .convergent, .none, .file, [], 10,
    [⟨digest [4], FixedBytes.zero _, digest [5], 5⟩,
      ⟨digest [6], FixedBytes.zero _, digest [7], 5⟩], []⟩
def ownChunk : Manifest :=
  ⟨manifestVersion, .convergent, .none, .file, [], 5,
    [⟨digest [8], FixedBytes.zero _, digest [9], 5⟩], []⟩

/-- Two keys in a folder that share a chunk, one outside the folder, and one that was deleted. -/
def folderBucket : BucketManifest :=
  ⟨((((∅ : OrdMap Bytes KeyObject).insert (utf8 "docs/a") ⟨1, Digest.zero, some oneChunk⟩).insert
    (utf8 "docs/b")
    ⟨1, Digest.zero, some twoChunks⟩).insert (utf8 "music") ⟨1, Digest.zero, some ownChunk⟩).insert
      (utf8 "old")
    ⟨2, Digest.zero, none⟩⟩

/-- A device that has published that bucket. -/
def folderSite : Site := (homeSite.savePublished calm folderBucket).2

/-- What is live in that bucket. -/
theorem of_folderBucket {key : Bytes} {m : Manifest} (live : folderBucket.live key = some m) :
    key = utf8 "music" ∧ m = ownChunk ∨ key = utf8 "docs/b" ∧ m = twoChunks ∨ key = utf8 "docs/a" ∧
      m = oneChunk := by
  -- The keys are looked up one after the other, from the last one entered.
  obtain ⟨e, held, object⟩ := Option.bind_eq_some_iff.mp live
  have is {k : Bytes} (same : compare k key = .eq) : key = k :=
    (Std.LawfulEqCmp.eq_of_compare same).symm
  simp only [BucketManifest.get, folderBucket, Std.ExtTreeMap.getElem?_insert] at held
  split at held
  · obtain rfl := Option.some.inj held
    cases object
  · split at held
    · rename_i same
      obtain rfl := Option.some.inj held
      exact .inl ⟨is same, (Option.some.inj object).symm⟩
    · split at held
      · rename_i same
        obtain rfl := Option.some.inj held
        exact .inr (.inl ⟨is same, (Option.some.inj object).symm⟩)
      · split at held
        · rename_i same
          obtain rfl := Option.some.inj held
          exact .inr (.inr ⟨is same, (Option.some.inj object).symm⟩)
        · simp at held

/-- Deleting a folder stays inside it, where only objects of the folder share chunks. -/
theorem folder_deletion_stays_inside :
    (∃ a, folderBucket.References (utf8 "music") a) ∧
      ¬(Scope.withPrefix "docs/").Names (utf8 "music") ∧
      folderSite.StaysInside folderBucket (.withPrefix "docs/") := by
  -- The conditions are looked up key by key.
  have music : ¬(Scope.withPrefix "docs/").Names (utf8 "music") := by
    show ¬utf8 "docs/" <+: utf8 "music"
    decide +kernel
  have docs : ∀ key ∈ [utf8 "docs/a", utf8 "docs/b"], (Scope.withPrefix "docs/").Names key := by
    show ∀ key ∈ [utf8 "docs/a", utf8 "docs/b"], utf8 "docs/" <+: key
    decide +kernel
  have live : folderBucket.live (utf8 "music") = some ownChunk := by decide +kernel
  have published : folderSite.loadPublishedHead = .ok folderBucket :=
    except_toOption_eq_some.mp (by decide +kernel)
  -- The object outside is the only one that has its chunk.
  have outside {key : Bytes} {a : Addr} (notNamed : ¬(Scope.withPrefix "docs/").Names key)
      (refers : folderBucket.References key a) : key = utf8 "music" ∧ a = digest [8] := by
    obtain ⟨m, live, owns⟩ := refers
    rcases of_folderBucket live with ⟨rfl, rfl⟩ | ⟨rfl, rfl⟩ | ⟨rfl, rfl⟩
    · exact ⟨rfl, by simpa [ownChunk] using owns⟩
    · exact absurd (docs _ (by simp)) notNamed
    · exact absurd (docs _ (by simp)) notNamed
  refine ⟨⟨digest [8], ownChunk, live, by decide +kernel⟩, music, ?_⟩
  refine (Site.stays_inside_iff folderSite folderBucket (.withPrefix "docs/") published).mpr
    ⟨?_, ?_⟩
  · intro key key' a named notNamed refers refers'
    obtain ⟨-, rfl⟩ := outside notNamed refers'
    obtain ⟨m, live, owns⟩ := refers
    rcases of_folderBucket live with ⟨rfl, rfl⟩ | ⟨rfl, rfl⟩ | ⟨rfl, rfl⟩
    · exact music named
    · exact absurd owns (by decide +kernel)
    · exact absurd owns (by decide +kernel)
  · intro key a notNamed selected refers
    obtain ⟨rfl, -⟩ := outside notNamed refers
    exact absurd selected (by decide +kernel)

end

end NasTools
