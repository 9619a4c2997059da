import NasTools.Lib.Machine
import NasTools.Lib.Pipes
import NasTools.Lib.Text
import NasTools.Model.Core.HexAddr
import NasTools.Model.Store.Git

/-!
Pushing git history into a namespace: refs, the map of objects, and what git and an import of
objects send each other.
-/

namespace NasTools

/-- What `git cat-file --batch` says of an object it was asked for. -/
inductive CatFile where
  | missing
  | object (kind : GitKind) (content : Bytes)

/-- What a push is asked to do. -/
structure PushSpec where
  force : Bool
  src : String
  dst : String
deriving DecidableEq

/-- Read a push spec: plus signs in front force it, and a colon parts the source from the ref. -/
def parsePushSpec (spec : String) : Except String PushSpec :=
  let rest := spec.toList.dropWhile (· == '+')
  match Text.splitOnce ':' rest with
  | none => .error ("bad push spec " ++ String.ofList rest)
  | some (src, dst) => .ok ⟨spec.toList.head? == some '+', String.ofList src, String.ofList dst⟩

/-- What the processes that push share: the files of the refs, and the map that was saved last. -/
structure GitShare where
  refs : OrdMap String GitOid
  map : OidMap

/--
Where a push stands between two operations.

The value of the ref that was read and the map that was loaded stay with it.
-/
inductive PushTask where
  | idle
  | reading (force : Bool) (dst : String) (new : GitOid)
  | testing (force : Bool) (dst : String) (new : GitOid) (old : Option GitOid)
  | loading (dst : String) (new : GitOid) (old : Option GitOid)
  -- Objects are stored one by one, and then the map is saved.
  | storing (dst : String) (new : GitOid) (old : Option GitOid) (base map : OidMap)
    (rest : List (GitOid × CatFile))
  | writing (dst : String) (new : GitOid) (old : Option GitOid)

/-- What an operation finds outside its own computation: the disk, and what git answers. -/
structure PushWorld where
  -- Reading the refs, loading the map's blob, saving the map, writing the ref.
  disk : Except String Unit
  -- Reading the file that points to the map.
  pointer : Except String Unit
  ancestor : Except String Bool
  listed : Except String (List GitOid)
  contents : Except String (List CatFile)
  -- Storing one object.
  stored : Except String Addr

/-- Whether a push from one value of a ref to another is a fast-forward. -/
def isFastForward (ancestor : Except String Bool) (old : Option GitOid) (new : GitOid) :
    Except String Bool :=
  match old with
  | none => .ok true
  | some old => if old = new then .ok true else ancestor

/-- Store an object that the map does not hold yet. -/
def persistObject (map : OidMap) (oid : GitOid) (kind : GitKind) (content : Bytes)
    (stored : Except String Addr) :
    Except String OidMap :=
  if map.contains oid then .ok map
  else do
    let addr ← stored
    return map.insert oid ⟨addr, kind, UInt32.ofNat (min content.length (2 ^ 32 - 1))⟩

/-- Whether a ref is one that is shared. -/
def isSharedRef (name : String) : Bool :=
  "refs/heads/".toList.isPrefixOf name.toList || "refs/tags/".toList.isPrefixOf name.toList

/-- Start a push; what git makes of the source is given. -/
def startPush (spec : String) (source : Except String GitOid) : PushTask :=
  match parsePushSpec spec with
  | .error _ => .idle
  | .ok parsed =>
    -- Deleting a ref is not implemented.
    if parsed.src = "" then .idle
    else
      match source with
      | .error _ => .idle
      | .ok new => .reading parsed.force parsed.dst new

/-- The map that was saved last; a pointer to it that cannot be read counts as an empty map. -/
def GitShare.loadMap (g : GitShare) (w : PushWorld) : Except String OidMap :=
  match w.pointer with
  | .ok () => w.disk.map fun _ => g.map
  | .error _ => .ok ∅

/-- The objects that a map does not hold. -/
def OidMap.lacking (map : OidMap) (listed : List GitOid) : List GitOid :=
  listed.filter fun oid => !map.contains oid

/-- The next operation of a push, and what it leaves behind; a push that fails is done. -/
def GitShare.proceed (g : GitShare) (w : PushWorld) : PushTask → PushTask × GitShare
  | .idle => (.idle, g)
  | .reading force dst new =>
    -- Refs that cannot be read count as refs that are not there.
    let old := match w.disk with
      | .ok () => g.refs[dst]?
      | .error _ => none
    (.testing force dst new old, g)
  | .testing force dst new old =>
    if force then (.loading dst new old, g)
    else
      match isFastForward w.ancestor old new with
      | .ok true => (.loading dst new old, g)
      | _ => (.idle, g)
  | .loading dst new old =>
    match g.loadMap w, w.listed with
    | .ok map, .ok listed =>
      let oids := OidMap.lacking map listed
      if oids = [] then (.storing dst new old map map [], g)
      else
        match w.contents with
        | .ok contents => (.storing dst new old map map (oids.zip contents), g)
        | .error _ => (.idle, g)
    | _, _ => (.idle, g)
  | .storing _ _ _ _ _ ((_, .missing) :: _) => (.idle, g)
  | .storing dst new old base map ((oid, .object kind content) :: rest) =>
    match persistObject map oid kind content w.stored with
    | .ok map => (.storing dst new old base map rest, g)
    | .error _ => (.idle, g)
  | .storing dst new old _ map [] =>
    match w.disk with
    | .ok () => (.writing dst new old, { g with map })
    | .error _ => (.idle, g)
  | .writing dst new _ =>
    if isSharedRef dst then
      match w.disk with
      | .ok () => (.idle, { g with refs := g.refs.insert dst new })
      | .error _ => (.idle, g)
    else (.idle, g)

/-- What happens to one of the processes. -/
inductive PushEvent where
  | push (spec : String) (source : Except String GitOid)
  | go (w : PushWorld)
  | kill

/-- A namespace, and where each process that pushes to it stands. -/
structure Pushing (P : Type) where
  share : GitShare
  tasks : P → PushTask

/-- Processes that push to one namespace, in any order. -/
def pushing (P : Type) [DecidableEq P] : Machine (Pushing P) (P × PushEvent) Unit where
  step s e :=
    match e.2 with
    | .push spec source =>
      match s.tasks e.1 with
      | .idle => ((), { s with tasks := Function.update s.tasks e.1 (startPush spec source) })
      | _ => ((), s)
    | .go w =>
      let (task, share) := s.share.proceed w (s.tasks e.1)
      ((), ⟨share, Function.update s.tasks e.1 task⟩)
    | .kill => ((), { s with tasks := Function.update s.tasks e.1 .idle })

/-- The text of a kind of object. -/
def GitKind.asStr : GitKind → List Char
  | .blob => "blob".toList
  | .tree => "tree".toList
  | .commit => "commit".toList
  | .tag => "tag".toList

/-- The line that asks for an object. -/
def oidLine (oid : GitOid) : Bytes := textBytes (toHex oid.bytes ++ ['\n'])

/--
What git answers: a header, the content as it is and the end of a line, or that there
is no such object.
-/
def CatFile.answer (oid : GitOid) : CatFile → Bytes
  | .missing => textBytes (toHex oid.bytes ++ " missing\n".toList)
  | .object kind content =>
    textBytes
        (toHex oid.bytes ++ ' ' :: kind.asStr ++ ' ' :: Nat.toDigits 10 content.length ++ ['\n']) ++
      content ++ [0x0A]

/-- The lines of an import, each with git's answer. -/
def catFileExchanges (wanted : List (GitOid × CatFile)) : List (Bytes × Bytes) :=
  wanted.map (fun (oid, found) => (oidLine oid, found.answer oid))

/-- Bytes of a line that asks for an object. -/
def oidLineLen : Nat := 2 * gitOidLen + 1

/-- An object's line has one length. -/
@[simp] theorem length_oidLine (oid : GitOid) : (oidLine oid).length = oidLineLen := by
  -- An object id has twice as many digits as bytes, and the line end is one more.
  have digits := length_textBytes_toHex oid.bytes
  rw [oid.size] at digits
  rw [oidLine, textBytes, List.flatMap_append, List.length_append]
  rw [textBytes] at digits
  rw [digits]
  rfl

/-- All lines of an import take as many bytes each. -/
theorem length_oidLines (wanted : List (GitOid × CatFile)) :
    ((catFileExchanges wanted).map Prod.fst).flatten.length = oidLineLen * wanted.length := by
  -- Induction over the objects, one line each.
  induction wanted with
  | nil => rfl
  | cons first rest ih =>
    simp only [catFileExchanges, List.map_map, List.map_cons, List.flatten_cons, List.length_append,
      List.length_cons, length_oidLine] at ih ⊢
    rw [ih, Nat.mul_succ, Nat.add_comm]

/-- Bytes of git's answers to a part of an import. -/
def answerBytes (wanted : List (GitOid × CatFile)) : Nat :=
  (wanted.map (fun (oid, found) => (found.answer oid).length)).sum

/-- The answers are as long as the objects that are asked for say. -/
theorem length_answers (wanted : List (GitOid × CatFile)) :
    ((catFileExchanges wanted).map Prod.snd).flatten.length = answerBytes wanted := by
  rw [List.length_flatten, catFileExchanges, List.map_map, List.map_map, answerBytes]
  rfl

/-- An object is answered with at least its content. -/
theorem content_length_le_answer (oid : GitOid) (kind : GitKind) (content : Bytes) :
    content.length < ((CatFile.object kind content).answer oid).length := by
  simp only [CatFile.answer, List.length_append, List.length_cons, List.length_nil]
  omega

end NasTools
