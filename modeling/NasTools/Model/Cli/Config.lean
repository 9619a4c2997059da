import NasTools.Lib.Fallible
import NasTools.Lib.Text
import NasTools.Model.Core.Format

/-! The configuration of a namespace: a text of lines and words, with one writer and two readers. -/

namespace NasTools

/-- What protects the objects of a namespace, chosen when it is created. -/
inductive ObjectLock where
  | governance
  | compliance
  | legalHold
deriving DecidableEq

def modeStr : Mode → List Char
  | .e2ee => "e2ee".toList
  | .passphrase => "passphrase".toList
  | .transitOnly => "transit-only".toList

def parseMode (s : List Char) : Option Mode :=
  if s = "e2ee".toList then some .e2ee
  else if s = "passphrase".toList then some .passphrase
  else if s = "transit-only".toList then some .transitOnly
  else none

def keySchemeStr : KeyScheme → List Char
  | .convergent => "convergent".toList
  | .indexedRandom => "indexed-random".toList
  | .plaintext => "plaintext".toList

def paddingStr : PaddingProfile → List Char
  | .none => "none".toList
  | .classes => "classes".toList
  | .fixed => "fixed".toList

def parsePadding (s : List Char) : Option PaddingProfile :=
  if s = "none".toList then some .none
  else if s = "classes".toList then some .classes
  else if s = "fixed".toList then some .fixed
  else none

def ObjectLock.asStr : ObjectLock → List Char
  | .governance => "governance".toList
  | .compliance => "compliance".toList
  | .legalHold => "legal-hold".toList

def parseObjectLock (s : List Char) : Option ObjectLock :=
  if s = "governance".toList then some .governance
  else if s = "compliance".toList then some .compliance
  -- A legal hold is spelled in two ways, of which one is written.
  else if s = "legal-hold".toList ∨ s = "legal_hold".toList then some .legalHold
  else none

/-- What a namespace is created with. -/
structure NewNamespace where
  mode : Mode
  keyScheme : KeyScheme
  padding : PaddingProfile
  lock : Option (ObjectLock × UInt64)
  device : Option (List Char)
  -- Drawn afresh for each namespace.
  tenantSalt : FixedBytes 32

/-- What a namespace says of itself, which is read without any secret. -/
structure Description where
  mode : Mode
  keyScheme : KeyScheme
  padding : PaddingProfile
  objectLock : Option ObjectLock
  retentionSecs : Option UInt64
  device : Option (List Char)
deriving DecidableEq

/-- What is read of the configuration when a namespace is opened. -/
structure OpenedConfig where
  mode : Mode
  keyScheme : KeyScheme
  padding : PaddingProfile
  tenantSalt : Bytes
deriving DecidableEq

/-- A line of the configuration: a name and its value. -/
def configLine (name value : List Char) : List Char := name ++ ' ' :: value ++ ['\n']

namespace NewNamespace

/-- The key scheme follows the mode: without encryption there are no keys of chunks. -/
def effectiveScheme (n : NewNamespace) : KeyScheme :=
  match n.mode with
  | .transitOnly => .plaintext
  | .e2ee | .passphrase => n.keyScheme

/-- The lines of the object lock, if there is one. -/
def lockLines (n : NewNamespace) : List Char :=
  match n.lock with
  | some (l, secs) => configLine "object_lock".toList l.asStr ++ configLine "retention_secs".toList
    (Nat.toDigits 10 secs.toNat)
  | none => []

/-- The line of the everyday device, if one is named. -/
def deviceLine (n : NewNamespace) : List Char :=
  match n.device with
  | some d => if d = [] then [] else configLine "device".toList d
  | none => []

/-- The configuration as it is written. -/
def config (n : NewNamespace) : List Char :=
  configLine "version".toList ['1'] ++ configLine "mode".toList (modeStr n.mode) ++
    configLine "key_scheme".toList (keySchemeStr n.effectiveScheme) ++
    configLine "padding_profile".toList (paddingStr n.padding) ++
    configLine "tenant_salt".toList (toHex n.tenantSalt.bytes) ++ n.lockLines ++ n.deviceLine

end NewNamespace

/-- Read one name with its value into a description; other names are passed over. -/
def describeField (d : Description) (name v : List Char) : Except String Description :=
  if name = "mode".toList then do return { d with mode := ← okOr (parseMode v) "bad mode" }
  else if name = "padding_profile".toList
    then do return { d with padding := ← okOr (parsePadding v) "bad padding" }
  -- One of the three schemes is known here, and the others are passed over.
  else if name = "key_scheme".toList ∧ v = "indexed-random".toList
    then .ok { d with keyScheme := .indexedRandom }
  else if name = "object_lock".toList then do
    return { d with objectLock := some (← okOr (parseObjectLock v) "bad object_lock") }
  else if name = "retention_secs".toList then do
    return { d with retentionSecs := some (← okOr (Text.parseU64 v) "bad retention_secs") }
  else if name = "device".toList then .ok { d with device := some v }
  else .ok d

/-- Read one line into a description: its first two words. -/
def describeLine (d : Description) (line : List Char) : Except String Description :=
  match Text.words line with
  | name :: v :: _ => describeField d name v
  | _ => .ok d

/-- Read a configuration alone. -/
def describe (cfg : List Char) : Except String Description :=
  (Text.lines cfg).foldlM describeLine ⟨.e2ee, .convergent, .none, none, none, none⟩

/-- Read one name with its value when a namespace is opened. -/
def openField (c : OpenedConfig) (name v : List Char) : Except String OpenedConfig :=
  if name = "mode".toList then do return { c with mode := ← okOr (parseMode v) "bad mode" }
  else if name = "padding_profile".toList
    then do return { c with padding := ← okOr (parsePadding v) "bad padding" }
  else if name = "key_scheme".toList ∧ v = "indexed-random".toList
    then .ok { c with keyScheme := .indexedRandom }
  else if name = "key_scheme".toList ∧ v = "plaintext".toList
    then .ok { c with keyScheme := .plaintext }
  else if name = "tenant_salt".toList then do
    return { c with tenantSalt := ← okOr (Text.parseHexBytes v) "malformed tenant_salt" }
  else .ok c

/-- Read one line when a namespace is opened: its first two words. -/
def openLine (c : OpenedConfig) (line : List Char) : Except String OpenedConfig :=
  match Text.words line with
  | name :: v :: _ => openField c name v
  | _ => .ok c

/-- Read a configuration to open its namespace. -/
def openConfig (cfg : List Char) : Except String OpenedConfig := do
  let c ← (Text.lines cfg).foldlM openLine ⟨.e2ee, .convergent, .none, []⟩
  -- Without a salt every tenant of the peer would share one pool.
  ensure (¬(c.mode = .transitOnly ∧ c.tenantSalt = []))
    "transit-only namespace has no tenant_salt in its config"
  return c

end NasTools
