import NasTools.Lib.Lossy
import NasTools.Lib.Quoting
import NasTools.Model.Cli.GitPush
import NasTools.Model.Delete.Record

/-! The filtered public mirror: its rules, and how a private history is rewritten under them. -/

namespace NasTools

/-- What is left out of the public mirror. -/
structure MirrorRules where
  excludePaths : List (List Char)
  dropEmptyCommits : Bool
  filterMessages : Bool
deriving DecidableEq

/-- Why a text is no set of rules. -/
inductive RulesError where
  | emptyGlob
  | unbalanced (pat : List Char)
  | notABool (key value : List Char)
  | notKeyValue (line : Nat)
  | emptyExcludes
  | unknownRule (key : List Char)
  | missingExcludes
  | io (error : String)
deriving DecidableEq

/-- The text of a flag. -/
def flagText (flag : Bool) : List Char := if flag then "true".toList else "false".toList

namespace MirrorRules

/-- The rules of a namespace that has none yet. -/
def defaultPub : MirrorRules := ⟨["fixes/**".toList, "internal/**".toList], true, true⟩

def encode (rules : MirrorRules) : List Char :=
  "exclude_paths=".toList ++ [','].intercalate rules.excludePaths ++
    "\ndrop_empty_commits=".toList ++ flagText rules.dropEmptyCommits ++
    "\nfilter_messages=".toList ++ flagText rules.filterMessages ++ "\n".toList

def hash [Crypto] (rules : MirrorRules) : List Char :=
  toHex (Crypto.blake3 (textBytes rules.encode)).bytes

end MirrorRules

def validateGlob (pat : List Char) : Except RulesError Unit :=
  if pat = [] then .error .emptyGlob
  else if pat.count '[' ≠ pat.count ']' then .error (.unbalanced pat)
  else .ok ()

def parseBool (value key : List Char) : Except RulesError Bool :=
  if value = "true".toList then .ok true
  else if value = "false".toList then .ok false
  else .error (.notABool key value)

/-- One line of the rules; the flag says whether a line has named the excluded paths. -/
def parseRulesLine (sofar : MirrorRules × Bool) (i : Nat) (raw : List Char) :
    Except RulesError (MirrorRules × Bool) :=
  let line := Text.trim raw
  if line = [] ∨ line.head? = some '#' then .ok sofar
  else
    match Text.splitOnce '=' line with
    | none => .error (.notKeyValue (i + 1))
    | some (k, v) =>
      let k := Text.trim k
      let v := Text.trim v
      if k = "exclude_paths".toList then
        if v = [] then .error .emptyExcludes
        else do
          let globs ← (v.splitOn ',').mapM fun g => do
            let g := Text.trim g
            validateGlob g
            return g
          return ({ sofar.1 with excludePaths := globs }, true)
      else if k = "drop_empty_commits".toList then do
        let flag ← parseBool v k
        return ({ sofar.1 with dropEmptyCommits := flag }, sofar.2)
      else if k = "filter_messages".toList then do
        let flag ← parseBool v k
        return ({ sofar.1 with filterMessages := flag }, sofar.2)
      else .error (.unknownRule k)

def parseRules (text : List Char) : Except RulesError MirrorRules := do
  let (rules, sawExcludes) ← (Text.lines text).zipIdx.foldlM
    (fun sofar (raw, i) => parseRulesLine sofar i raw)
    (⟨[], true, true⟩, false)
  if sawExcludes then return rules else throw .missingExcludes

-- The rules a namespace starts with are read back from the file they are written to.
example : parseRules MirrorRules.defaultPub.encode = .ok .defaultPub := by decide

/-- Whether a test passes on a list, or on what is left after dropping some of its front. -/
def anySuffix {A : Type} (test : List A → Bool) : List A → Bool
  | [] => test []
  | a :: rest => test (a :: rest) || anySuffix test rest

/-- Match a segment against a pattern, byte by byte. -/
def globSeg : (pat seg : Bytes) → Bool
  | [], seg => seg.isEmpty
  | a :: pat, seg =>
    -- A star stands for nothing, or takes a byte and stays.
    if a = 0x2a then anySuffix (globSeg pat) seg
    else
      match seg with
      | [] => false
      | b :: seg => (a == 0x3f || a == b) && globSeg pat seg

def segMatch (pat seg : Bytes) : Bool :=
  if !pat.contains 0x2a && !pat.contains 0x3f then pat == seg else globSeg pat seg

/-- Match the segments of a path against those of a pattern. -/
def globRec : (pat path : List Bytes) → Bool
  | [], path => path.isEmpty
  | p :: pat, path =>
    -- Two stars stand for no segment, or take one and stay.
    if p = [0x2a, 0x2a] then anySuffix (globRec pat) path
    else
      match path with
      | [] => false
      | seg :: path => segMatch p seg && globRec pat path

/-- The parts of a path between its slashes. -/
def segments (path : Bytes) : List Bytes := (path.splitOn 0x2f).filter (· ≠ [])

def globMatch (pat path : Bytes) : Bool := globRec (segments pat) (segments path)

/-- Whether a path matches one of the patterns of the rules. -/
def MirrorRules.excludes (rules : MirrorRules) (path : Bytes) : Bool :=
  rules.excludePaths.any fun g => globMatch (textBytes g) path

/-- The same for a path that was read as text. -/
def excluded (path : List Char) (rules : MirrorRules) : Bool := rules.excludes (textBytes path)

/--
The modes git gives the files of a tree; an old entry with other bits counts as the one it prints.
-/
inductive FileMode where
  | regular
  | executable
  | link
  | submodule
deriving DecidableEq

/-- A mode as git prints it. -/
def FileMode.text : FileMode → List Char
  | .regular => "100644".toList
  | .executable => "100755".toList
  | .link => "120000".toList
  | .submodule => "160000".toList

/-- What git says a file of this mode is. -/
def FileMode.kind : FileMode → List Char
  | .submodule => "commit".toList
  | _ => "blob".toList

/-- A file of a commit. -/
structure GitFile where
  mode : FileMode
  oid : GitOid
  path : Bytes
deriving DecidableEq

/-- The files of a commit; no two of them have the same path. -/
structure GitTree where
  files : List GitFile
  paths : (files.map GitFile.path).Nodup

/-- The name of an object as text. -/
abbrev ObjectName := List Char

/-- The private history as a repository of its own: what git answers about it. -/
structure PrivateRepo where
  /-- The commits under the head, each after its parents; nothing where there is no head. -/
  listed : Option (List ObjectName)
  commit : ObjectName → Option Bytes
  tree : ObjectName → Option GitTree
  blob : ObjectName → Option Bytes

/-- A line of `git ls-tree -r`. -/
def GitFile.line (f : GitFile) : List Char :=
  f.mode.text ++ ' ' :: f.mode.kind ++ ' ' :: toHex f.oid.bytes ++ '\t' ::
    Quoting.quote f.path ++ ['\n']

/-- What `git ls-tree -r` prints. -/
def GitTree.printed (t : GitTree) : Bytes := textBytes (t.files.flatMap GitFile.line)

/-- An entry of a tree as it was read from git's output. -/
structure TreeEnt where
  mode : List Char
  oid : ObjectName
  path : List Char
deriving DecidableEq

/-- One line of the listing of a tree. -/
def parseTreeLine (line : List Char) : Except String TreeEnt :=
  match Text.splitOnce '\t' line with
  | none => .error "ls-tree: no tab"
  | some (about, path) =>
    match Text.words about with
    | [] => .error "ls-tree mode"
    | mode :: more =>
      match more[1]? with
      | none => .error "ls-tree oid"
      | some oid => .ok ⟨mode, oid, path⟩

/-- The entries of a tree, from what git printed. -/
def parseTree (out : Bytes) : Except String (List TreeEnt) :=
  (Text.lines (fromUtf8Lossy out)).mapM parseTreeLine

/-- Who made a commit, and when. -/
structure Ident where
  name : List Char
  email : List Char
  date : List Char
deriving DecidableEq

/-- What is carried over from a private commit. -/
structure CommitMeta where
  parents : List ObjectName
  author : Ident
  committer : Ident
  message : List Char
deriving DecidableEq

def parseIdent (s : List Char) : Except String Ident :=
  match Text.splitAround " <".toList s with
  | none => .error "commit ident: no <"
  | some (name, rest) =>
    match Text.splitAround "> ".toList rest with
    | none => .error "commit ident: no >"
    | some (email, date) => .ok ⟨name, email, date⟩

/-- One line of a commit's header; of several authors or committers the last one counts. -/
def parseHeaderLine (sofar : List ObjectName × Option Ident × Option Ident) (line : List Char) :
    Except String (List ObjectName × Option Ident × Option Ident) :=
  match line.dropPrefix? "parent ".toList with
  | some p => .ok (sofar.1 ++ [p], sofar.2)
  | none =>
    match line.dropPrefix? "author ".toList with
    | some a => do return (sofar.1, some (← parseIdent a), sofar.2.2)
    | none =>
      match line.dropPrefix? "committer ".toList with
      | some c => do return (sofar.1, sofar.2.1, some (← parseIdent c))
      | none => .ok sofar

def parseCommit (out : Bytes) : Except String CommitMeta :=
  match Text.splitAround "\n\n".toList (fromUtf8Lossy out) with
  | none => .error "commit has no body"
  | some (header, message) => do
    let (parents, author, committer) ← (Text.lines header).foldlM parseHeaderLine ([], none, none)
    match author, committer with
    | none, _ => throw "commit has no author"
    | _, none => throw "commit has no committer"
    | some author, some committer => return ⟨parents, author, committer, message⟩

/-- A message without the names of the paths that are left out. -/
def filterMsg (msg : List Char) (rules : MirrorRules) : List Char :=
  rules.excludePaths.foldl (fun s g =>
    let start := (g.rdropWhile (· == '*')).rdropWhile (· == '/')
    if start = [] then s else Text.replaceAfter start "[filtered]".toList 0 s) msg

end NasTools
