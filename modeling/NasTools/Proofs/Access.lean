import NasTools.Lib.Spec
import NasTools.Model.Gateway.Access
import NasTools.Proofs.Signatures

/-!
The gateway over whole runs: who is let in, what outsiders change and learn, and
which requests can write.
-/

namespace NasTools

namespace Dav

variable {creds : Creds} {r : HttpRequest}

/--
A request is let in at the WebDAV face exactly with the name and the password, in Base64.

A colon ends the name, so a name with a colon in it is never let in.
-/
theorem checkBasic_eq_ok : checkBasic creds r = .ok () ↔ ':' ∉ creds.accessKeyId ∧
    ∃ raw, r.headers["authorization".toList]? = some ("Basic ".toList ++ raw) ∧
      Base64.decode raw = some (textBytes (creds.accessKeyId ++ ':' :: creds.secretAccessKey)) := by
  -- The header is read stage by stage: its scheme, its base64, its text and the first colon in
  -- it.
  simp only [checkBasic, except_bind_eq_ok, okOr_eq_ok, List.dropPrefix?_eq_some_iff, beq_iff_eq,
    Option.map_eq_some_iff, ofUtf8?_eq_some, utf8_eq_textBytes, ensure_eq_ok, Bool.and_eq_true,
    SigV4.ctEq_iff, Prod.exists, Text.splitOnce_eq_some]
  constructor
  · rintro ⟨_, sent, raw, ⟨_, is, rfl⟩, bytes, read, _, ⟨text, spelled, rfl⟩, user, pass,
      ⟨parted, free⟩, sameUser, samePass⟩
    obtain rfl := textBytes_injective sameUser
    obtain rfl := textBytes_injective samePass
    exact ⟨free, raw, by rw [sent, is], by rw [read, ← spelled, parted]⟩
  · rintro ⟨free, raw, sent, read⟩
    exact ⟨_, sent, raw, ⟨_, rfl, rfl⟩, _, read, _,
      ⟨String.ofList _, by rw [String.toList_ofList], rfl⟩, _, _, ⟨String.toList_ofList, free⟩,
      rfl, rfl⟩

end Dav

namespace Text

variable {q : Char} {word front rest : List Char}

/-- What stands behind the first place where a word in a text begins with a mark. -/
def behind (q : Char) (word text : List Char) : Option (List Char) :=
  (splitAround (q :: word) text).map Prod.snd

example : behind ',' ['a'] "x,ab".toList = some ['b'] := by decide +kernel

/-- Nothing begins where there is no mark. -/
theorem behind_append (free : q ∉ front) : behind q word (front ++ rest) = behind q word rest := by
  -- Induction over the front, which the mark does not occur in.
  induction front with
  | nil => rfl
  | cons c front ih =>
    simp only [List.mem_cons, not_or] at free
    have none_ : (c :: (front ++ rest)).dropPrefix? (q :: word) = none := by
      simp [List.dropPrefix?, Ne.symm free.1]
    rw [← ih free.2, List.cons_append, behind, splitAround, none_, behind, Option.map_map]
    rfl

/-- At a mark the word begins, or the search goes on right behind the mark. -/
theorem behind_cons :
    behind q word (q :: rest) = (rest.dropPrefix? word).or (behind q word rest) := by
  -- The word is looked for behind this mark and then behind later ones.
  have at_ : (q :: rest).dropPrefix? (q :: word) = rest.dropPrefix? word := by
    simp [List.dropPrefix?]
  rw [behind, splitAround, at_]
  cases rest.dropPrefix? word with
  | some after => rfl
  | none =>
    rw [Option.none_or, behind, Option.map_map]
    rfl

/-- Two texts that each end at their first mark are the same where one is in front of the other. -/
theorem dropPrefix?_marked {value : List Char} (free : q ∉ word) (free' : q ∉ value) :
    (value ++ q :: rest).dropPrefix? (word ++ [q]) = if value = word then some rest else none := by
  -- Neither part holds the mark, so the texts agree up to it or not at all.
  split
  · rename_i same
    rw [same, ← List.singleton_append, ← List.append_assoc]
    exact List.dropPrefix?_append_of_beq _ (beq_self_eq_true _)
  · rename_i other
    rw [Option.eq_none_iff_forall_ne_some]
    intro more inFront
    obtain ⟨_, is, same⟩ := List.dropPrefix?_eq_some_iff.mp inFront
    rw [eq_of_beq same, List.append_assoc, List.singleton_append] at is
    exact other (append_separator_inj free' free is).1

/-- Up to the first mark there is none. -/
theorem splitOnce_marked (value rest : List Char) :
    ∃ more, splitOnce q (value ++ q :: rest) = some (value.takeWhile (· ≠ q), more) := by
  -- The text is cut at its first mark, which is in the value or right behind it.
  have free : q ∉ value.takeWhile (· ≠ q) := by
    intro member
    simpa using List.mem_takeWhile_imp member
  rcases behind : value.dropWhile (· ≠ q) with _ | ⟨c, more⟩
  · have whole : value.takeWhile (· ≠ q) = value := by
      have both := List.takeWhile_append_dropWhile (p := (· ≠ q)) (l := value)
      rwa [behind, List.append_nil] at both
    rw [whole] at free ⊢
    exact ⟨rest, splitOnce_append free⟩
  · have mark : c = q := by
      have stops := List.head?_dropWhile_not (· ≠ q) value
      rw [behind] at stops
      simpa using stops
    have both := List.takeWhile_append_dropWhile (p := (· ≠ q)) (l := value)
    rw [behind, mark] at both
    refine ⟨more ++ q :: rest, ?_⟩
    conv_lhs => rw [← both]
    rw [List.append_assoc, List.cons_append]
    exact splitOnce_append free

end Text

namespace Creds

/-- The value behind a name in quotes. -/
def valueBehind (rest : List Char) : Option (List Char) := do
  let rest ← (rest.dropWhile Text.isWhite).dropPrefix? [':']
  let rest ← (rest.dropWhile Text.isWhite).dropPrefix? ['"']
  let (v, _) ← Text.splitOnce '"' rest
  return v

/-- A member's value is read behind its quoted name. -/
theorem jsonString_eq (s key : List Char) :
    jsonString s key = (Text.behind '"' (key ++ ['"']) s).bind valueBehind := by
  unfold jsonString Text.behind valueBehind
  rw [List.cons_append]
  cases Text.splitAround ('"' :: (key ++ ['"'])) s <;> rfl

/-- A value goes up to the first quotation mark in it. -/
theorem valueBehind_marked (value rest : List Char) :
    valueBehind (':' :: '"' :: (value ++ '"' :: rest)) = some (value.takeWhile (· ≠ '"')) := by
  -- There is no white space to skip, and the value ends at the next quotation mark.
  obtain ⟨more, parted⟩ := Text.splitOnce_marked (q := '"') value rest
  have colon : (':' :: '"' :: (value ++ '"' :: rest)).dropWhile Text.isWhite =
      ':' :: '"' :: (value ++ '"' :: rest) :=
    List.dropWhile_cons_of_neg (by decide)
  have mark :
      ('"' :: (value ++ '"' :: rest)).dropWhile Text.isWhite = '"' :: (value ++ '"' :: rest) :=
    List.dropWhile_cons_of_neg (by decide)
  simp [valueBehind, colon, mark, List.dropPrefix?, parted]

variable {c : Creds}

/-- The names in the file have no quotation mark, and are not taken for each other. -/
theorem names_plain : '"' ∉ "access_key_id".toList ∧ '"' ∉ "secret_access_key".toList ∧
    "access_key_id".toList ≠ "secret_access_key".toList ∧ [':'] ≠ "secret_access_key".toList ∧
      [','] ≠ "secret_access_key".toList := by
  decide +kernel

/-- The words around the values, by the names in them. -/
theorem words_eq :
    "\x7b\"access_key_id\":\"".toList = ['\x7b', '"'] ++ "access_key_id".toList ++ ['"', ':', '"'] ∧
    "\",\"secret_access_key\":\"".toList = ['"', ',', '"'] ++ "secret_access_key".toList ++
      ['"', ':', '"'] ∧
    "\"\x7d\n".toList = ['"', '\x7d', '\n'] := by
  decide +kernel

/-- The file from one quotation mark to the next. -/
theorem encode_eq (c : Creds) :
    c.encode = ['\x7b'] ++ '"' :: ("access_key_id".toList ++ '"' :: ([':'] ++ '"' ::
    (c.accessKeyId ++ '"' :: ([','] ++ '"' :: ("secret_access_key".toList ++ '"' :: (':' :: '"' ::
      (c.secretAccessKey ++ '"' :: ['\x7d', '\n']))))))) := by
  obtain ⟨opening, middle, closing⟩ := words_eq
  unfold encode
  simp only [opening, middle, closing, List.append_assoc, List.cons_append, List.nil_append]

/-- The first value that is read goes up to a quotation mark. -/
theorem jsonString_accessKeyId (c : Creds) :
    jsonString c.encode "access_key_id".toList = some (c.accessKeyId.takeWhile (· ≠ '"')) := by
  obtain ⟨free, _⟩ := names_plain
  rw [jsonString_eq, encode_eq, Text.behind_append (by decide), Text.behind_cons,
    Text.dropPrefix?_marked free free, if_pos rfl, Option.some_or, Option.bind_some]
  exact valueBehind_marked _ _

/-- So does the second, unless the first one has its name. -/
theorem jsonString_secretAccessKey (free : '"' ∉ c.accessKeyId) :
    jsonString c.encode "secret_access_key".toList =
      if c.accessKeyId = "secret_access_key".toList then none
        else some (c.secretAccessKey.takeWhile (· ≠ '"')) := by
  -- The name is looked for behind each quotation mark in turn; the first value could pass for it.
  obtain ⟨first, second, other, colon, comma⟩ := names_plain
  rw [jsonString_eq, encode_eq, Text.behind_append (by decide), Text.behind_cons,
    Text.dropPrefix?_marked second first, if_neg other, Option.none_or, Text.behind_append first,
    Text.behind_cons,
    Text.dropPrefix?_marked second (by decide), if_neg colon, Option.none_or,
    Text.behind_append (by decide),
    Text.behind_cons, Text.dropPrefix?_marked second free]
  split
  · -- What is behind that name is a comma.
    rfl
  · rw [Option.none_or, Text.behind_append free, Text.behind_cons,
      Text.dropPrefix?_marked second (by decide), if_neg comma,
      Option.none_or, Text.behind_append (by decide), Text.behind_cons,
      Text.dropPrefix?_marked second second, if_pos rfl,
      Option.some_or, Option.bind_some]
    exact valueBehind_marked _ _

end Creds

/--
A file of credentials is read back exactly when both values are there and have no
quotation mark in them.

The one exception is an access key with the name of the other field, behind which no value is found.
-/
theorem Creds.decode_encode_iff (c : Creds) : Creds.decode (textBytes c.encode) = .ok c ↔
    c.accessKeyId ≠ [] ∧ c.secretAccessKey ≠ [] ∧ '"' ∉ c.accessKeyId ∧ '"' ∉ c.secretAccessKey ∧
      c.accessKeyId ≠ "secret_access_key".toList := by
  -- A value is read up to the first quotation mark, so it is whole where it has none.
  have whole {value : List Char} : value.takeWhile (· ≠ '"') = value ↔ '"' ∉ value := by
    rw [List.takeWhile_eq_self_iff]
    constructor
    · intro all member
      simpa using all _ member
    · intro free x member
      simp only [ne_eq, decide_not, Bool.not_eq_eq_eq_not, Bool.not_true, decide_eq_false_iff_not]
      rintro rfl
      exact free member
  have text : ofUtf8? (textBytes c.encode) = some (String.ofList c.encode) := by
    rw [ofUtf8?_eq_some, utf8_eq_textBytes, String.toList_ofList]
  simp only [Creds.decode, text, Option.map_some, String.toList_ofList, okOr_some, except_ok_bind,
    Creds.jsonString_accessKeyId]
  constructor
  · intro read
    simp only [except_bind_eq_ok, okOr_eq_ok, ensure_eq_ok, except_pure_eq, Except.ok.injEq] at read
    obtain ⟨sk, second, _, ⟨someAk, someSk⟩, same⟩ := read
    obtain ⟨first, rfl⟩ : c.accessKeyId.takeWhile (· ≠ '"') = c.accessKeyId ∧
      sk = c.secretAccessKey :=
      ⟨congrArg Creds.accessKeyId same, congrArg Creds.secretAccessKey same⟩
    -- What was read is what was written, so no mark ended it early.
    have freeAk := whole.mp first
    rw [Creds.jsonString_secretAccessKey freeAk] at second
    split at second
    · cases second
    · rename_i other
      exact ⟨first ▸ someAk, someSk, freeAk, whole.mp (Option.some.inj second), other⟩
  · rintro ⟨someAk, someSk, freeAk, freeSk, other⟩
    rw [whole.mpr freeAk, Creds.jsonString_secretAccessKey freeAk, if_neg other, whole.mpr freeSk,
      okOr_some, except_ok_bind, ensure_of ⟨someAk, someSk⟩]
    rfl

/-- No digit of a hexadecimal text is a mark that the file or the header gives a meaning to. -/
theorem Text.marks_not_mem_toHex (data : Bytes) :
    '"' ∉ toHex data ∧ ':' ∉ toHex data ∧ '_' ∉ toHex data := by
  -- Each of the sixteen digits differs from the marks.
  have each : ∀ n < 16, hexDigit n ≠ '"' ∧ hexDigit n ≠ ':' ∧ hexDigit n ≠ '_' := by decide
  refine ⟨?_, ?_, ?_⟩ <;> intro member <;> obtain ⟨n, below, is⟩ := mem_toHex member
  · exact (each n below).1 is.symm
  · exact (each n below).2.1 is.symm
  · exact (each n below).2.2 is.symm

/--
Credentials of any two seeds read back from their file, and open the WebDAV face to
just those who send them.

A client that spells them by the book is one of these.
-/
theorem generated_credentials_open_the_face (seedAk : FixedBytes 16) (seedSk : FixedBytes 32) :
    let c := Creds.generate seedAk seedSk
    let sent := textBytes (c.accessKeyId ++ ':' :: c.secretAccessKey)
    Creds.decode (textBytes c.encode) = .ok c ∧ Base64.decode (Base64.encode sent) = some sent ∧
      ∀ r : HttpRequest, Dav.checkBasic c r = .ok () ↔
        ∃ raw, r.headers["authorization".toList]? = some ("Basic ".toList ++ raw) ∧
          Base64.decode raw = some sent := by
  -- The keys are hexadecimal, so they are not empty and hold none of the marks that the readers
  -- look for.
  obtain ⟨markAk, colonAk, underAk⟩ := Text.marks_not_mem_toHex seedAk.bytes
  obtain ⟨markSk, _, _⟩ := Text.marks_not_mem_toHex seedSk.bytes
  have someAk : toHex seedAk.bytes ≠ [] := by
    have length := Text.toHex_length seedAk.bytes
    rw [seedAk.size] at length
    exact List.ne_nil_of_length_pos (by omega)
  have someSk : toHex seedSk.bytes ≠ [] := by
    have length := Text.toHex_length seedSk.bytes
    rw [seedSk.size] at length
    exact List.ne_nil_of_length_pos (by omega)
  have other : toHex seedAk.bytes ≠ "secret_access_key".toList := by
    intro same
    rw [same] at underAk
    exact underAk (by decide)
  refine ⟨?_, Base64.decode_encode _, fun r => ?_⟩
  · rw [Creds.decode_encode_iff]
    exact ⟨someAk, someSk, markAk, markSk, other⟩
  · rw [Dav.checkBasic_eq_ok]
    exact and_iff_right colonAk

namespace Gateway

section

variable [Sha2]

/--
Whether credentials let a request in: by their name and password at one face, by a
signature at the other.
-/
def Admits (c : Creds) (r : HttpRequest) : Prop :=
  if Dav.wantsDav r then Dav.checkBasic c r = .ok () else SigV4.verify c r = .ok ()

instance (c : Creds) (r : HttpRequest) : Decidable (Admits c r) := by
  unfold Admits
  infer_instance

/-- The answer to a request that is not let in. -/
def refusal (c : Creds) (r : HttpRequest) : HttpResponse :=
  if Dav.wantsDav r then Dav.unauthorized
  else match SigV4.verify c r with
    | .error e => e.answer
    | .ok () => Dav.unauthorized

/-- Whether what is read of a connection is a request that is let in. -/
def heard (c : Creds) (reads : List (Except String Bytes)) : Bool :=
  match readRequest reads with
  | .ok r => Admits c r
  | .error _ => false

/-- What a connection is answered that is not let in. -/
def turnedAway (c : Creds) (reads : List (Except String Bytes)) : Option HttpResponse :=
  match readRequest reads with
  | .ok r => some (refusal c r)
  | .error (.tooLarge _ _) =>
    some (S3.respond 413 "Payload Too Large" "text/plain" "body too large")
  | .error _ => none

variable {S : Type} {b : Buckets S} {c : Creds} {r : HttpRequest}
    {reads : List (Except String Bytes)} {s : S}

/-- Who is let in is served as on a socket of one's own. -/
theorem serve_of_admits (admits : Admits c r) : serve (some c) b r s = serve none b r s := by
  -- Whichever face is asked, its check passes.
  unfold Admits at admits
  unfold serve
  split at admits
  · rename_i dav
    rw [if_pos dav, if_pos dav]
    simp only [admits]
  · rename_i s3
    rw [if_neg s3, if_neg s3]
    simp only [admits]

/-- Who is not let in is refused, whatever there is to be served. -/
theorem serve_of_not_admits (outside : ¬Admits c r) : serve (some c) b r s = (refusal c r, s) := by
  -- Whichever face is asked, its check refuses.
  unfold Admits at outside
  unfold serve refusal
  split at outside
  · rename_i dav
    simp only [dav, if_true]
    cases checked : Dav.checkBasic c r with
    | error e => rfl
    | ok u => exact (outside checked).elim
  · rename_i s3
    rw [if_neg s3, if_neg s3]
    cases checked : SigV4.verify c r with
    | error e => simp only [checked]
    | ok u => exact (outside checked).elim

/-- A request that is heard is served as without credentials. -/
theorem step_of_heard (is : heard c reads = true) :
    (listener (some c) b).step s reads = (listener none b).step s reads := by
  -- Only a stream that reads as a request can be heard.
  simp only [listener, handleStream]
  unfold heard at is
  split at is
  · rename_i r read
    simp only [read, serve_of_admits (of_decide_eq_true is)]
  · cases is

/-- A connection that is not heard is turned away and changes nothing. -/
theorem step_of_unheard (is : heard c reads = false) :
    (listener (some c) b).step s reads = (turnedAway c reads, s) := by
  -- The stream reads as a request that is refused, or it does not read.
  simp only [listener, handleStream, turnedAway]
  unfold heard at is
  split at is
  · rename_i r read
    simp only [read, serve_of_not_admits (of_decide_eq_false is)]
  · rename_i e failed
    cases e <;> simp only [failed]

end

end Gateway

/--
Whoever has no credentials changes nothing and learns nothing, in any run of connections.

What the buckets come to and what the others are answered is as if the connections that are not
let in had never been made, on a socket that lets everybody in; and what those are answered
says nothing of the buckets.
-/
theorem outsiders_are_inert [Sha2] {S : Type} (c : Creds) (b : Buckets S) (s : S)
    (connections : List (List (Except String Bytes))) :
    let listener := Gateway.listener (some c) b
    let open_ := Gateway.listener none b
    let heard := connections.filter (Gateway.heard c)
    listener.run s connections = open_.run s heard ∧
      (listener.log s connections).filter (fun e => Gateway.heard c e.1) = open_.log s heard ∧
      ∀ e ∈ listener.log s connections, Gateway.heard c e.1 = false →
        e.2 = Gateway.turnedAway c e.1 :=
  -- Each connection is served as without credentials or changes nothing, which the machine's
  -- rules lift to runs.
  ⟨Machine.run_filter (fun _ _ => Gateway.step_of_heard) (fun _ _ => Gateway.step_of_unheard) s,
    Machine.log_filter (fun _ _ => Gateway.step_of_heard) (fun _ _ => Gateway.step_of_unheard) s,
    fun _ => Machine.answer_of_unheard (fun _ _ => Gateway.step_of_unheard) s⟩

section

variable {S : Type}

/-- What the buckets may come to by one call that reads. -/
inductive Buckets.Reads (b : Buckets S) : S → S → Prop where
  | listBuckets (s : S) : Reads b s (b.listBuckets s).2
  | list (bucket pref : String) (s : S) : Reads b s (b.list bucket pref s).2
  | get (bucket key : String) (s : S) : Reads b s (b.get bucket key s).2
  | head (bucket key : String) (s : S) : Reads b s (b.head bucket key s).2
  | getRange (bucket key : String) (start stop : UInt64) (s : S) :
    Reads b s (b.getRange bucket key start stop s).2

/-- What the buckets come to by calls of which just these write, in this order. -/
inductive Buckets.Leads (b : Buckets S) (s : S) : List S3.Operation → S → Prop where
  | start : Leads b s [] s
  | read {writes : List S3.Operation} {t u : S} (before : Leads b s writes t) (call : b.Reads t u) :
    Leads b s writes u
  | put {writes : List S3.Operation} {t : S} (before : Leads b s writes t) (bucket key : List Char)
    (body : Bytes) :
    Leads b s (writes ++ [.put bucket key body])
      (b.put (String.ofList bucket) (String.ofList key) body t).2
  | delete {writes : List S3.Operation} {t : S} (before : Leads b s writes t)
    (bucket key : List Char) :
    Leads b s (writes ++ [.delete bucket key])
      (b.delete (String.ofList bucket) (String.ofList key) t).2

/-- The operations that write. -/
def S3.Operation.writes : S3.Operation → Bool
  | .put _ _ _ | .delete _ _ => true
  | _ => false

variable {b : Buckets S} {s t u : S} {ws more : List S3.Operation}

/-- Calls one after the other. -/
theorem Buckets.Leads.trans (first : b.Leads s ws t) (second : b.Leads t more u) :
    b.Leads s (ws ++ more) u := by
  -- Induction over the second run of calls.
  induction second with
  | start => rwa [List.append_nil]
  | read _ call ih => exact ih.read call
  | put _ bucket key body ih =>
    rw [← List.append_assoc]
    exact ih.put bucket key body
  | delete _ bucket key ih =>
    rw [← List.append_assoc]
    exact ih.delete bucket key

/-- One call that reads. -/
theorem Buckets.Reads.leads (call : b.Reads s t) : b.Leads s [] t := .read .start call

/-- Answering a call leaves what the call left. -/
theorem S3.answer_snd {A : Type} (call : BucketCall S A) (done : A → HttpResponse) (s : S) :
    (S3.answer call done s).2 = (call s).2 := by
  unfold S3.answer
  split <;> rename_i is <;> rw [is]

/-- Reading an object asks for its length at most, and for a part of it or for all. -/
theorem leads_writeObjectGet (bucket key : String) (range : Option (List Char)) (s : S) :
    b.Leads s [] (S3.writeObjectGet b bucket key range s).2 := by
  -- The object's head is asked for and then the part of it.
  unfold S3.writeObjectGet
  split
  · rw [S3.answer_snd]
    exact (Buckets.Reads.get bucket key s).leads
  · have asked : b.Leads s [] (b.head bucket key s).2 := (Buckets.Reads.head bucket key s).leads
    split
    · rename_i is
      rwa [is] at asked
    · rename_i is
      rw [is] at asked
      split
      · rename_i start stop _
        have part := Buckets.Reads.getRange (b := b) bucket key start stop
        split
        · rename_i got
          have := asked.read (part _)
          rwa [got] at this
        · rename_i got
          have := asked.read (part _)
          rwa [got] at this
      · exact asked

/-- An operation writes once, or not at all. -/
theorem leads_perform (range : Option (List Char)) (op : S3.Operation) (s : S) :
    b.Leads s (if op.writes then [op] else []) (S3.perform b range op s).2 := by
  -- One case for each operation; only the last two write.
  cases op with
  | listBuckets =>
    rw [S3.perform, S3.answer_snd]
    exact (Buckets.Reads.listBuckets s).leads
  | probe | refused => exact .start
  | headBucket bucket =>
    rw [S3.perform, S3.answer_snd]
    exact (Buckets.Reads.list _ _ s).leads
  | listObjects bucket pref =>
    rw [S3.perform, S3.answer_snd]
    exact (Buckets.Reads.list _ _ s).leads
  | get bucket key => exact leads_writeObjectGet _ _ range s
  | head bucket key =>
    rw [S3.perform, S3.answer_snd]
    exact (Buckets.Reads.head _ _ s).leads
  | put bucket key body =>
    rw [S3.perform, S3.answer_snd]
    exact .put .start bucket key body
  | delete bucket key =>
    rw [S3.perform, S3.answer_snd]
    exact .delete .start bucket key

end

namespace Dav

variable {S : Type} {b : Buckets S} {s : S}

/-- What is told behind a prefix takes one listing. -/
theorem leads_appendChildren (bucket pref hrefBase : List Char) (out : List DavEntry) (s : S) :
    b.Leads s [] (appendChildren b bucket pref hrefBase out s).2 := by
  -- The children are listed in one call.
  have call := Buckets.Reads.list (b := b) (String.ofList bucket) (String.ofList pref) s
  unfold appendChildren
  split
  · rename_i is
    rw [is] at call
    exact call.leads
  · rename_i is
    rw [is] at call
    exact call.leads

/-- What is told of one key takes a listing or two. -/
theorem leads_objectOrCollection (bucket key : List Char) (includeChildren : Bool) (s : S) :
    b.Leads s [] (objectOrCollection b bucket key includeChildren s).2 := by
  -- The key is listed, and where it is a folder its children are too.
  have call := (Buckets.Reads.list (b := b) (String.ofList bucket) (String.ofList key) s).leads
  unfold objectOrCollection
  split
  · rename_i is
    rwa [is] at call
  · rename_i is
    rw [is] at call
    dsimp only
    generalize (if key.getLast? = some '/' then key else key ++ ['/']) = childPrefix
    split
    · exact call
    · split
      · split
        · exact call.trans (leads_appendChildren _ _ _ _ _)
        · exact call
      · exact call

/-- A PROPFIND only reads. -/
theorem leads_propfind (headers : Headers) (route : Route) (s : S) :
    b.Leads s [] (propfind b headers route s).2 := by
  -- The root lists buckets, a bucket lists its keys, and a key is looked at itself.
  unfold propfind
  dsimp only
  split
  · have call := (Buckets.Reads.listBuckets (b := b) s).leads
    split
    · split
      · rename_i is
        rwa [is] at call
      · rename_i is
        rwa [is] at call
    · exact .start
  · rename_i bucket pref
    split
    · exact leads_objectOrCollection _ _ _ s
    · have call := (Buckets.Reads.list (b := b) (String.ofList bucket) "" s).leads
      split
      · rename_i is
        rwa [is] at call
      · rename_i is
        rw [is] at call
        split
        · exact call.trans (leads_appendChildren _ _ _ _ _)
        · exact call
  · exact leads_objectOrCollection _ _ _ s

/-- The WebDAV face only reads, whatever it is asked. -/
theorem leads_dispatch (r : HttpRequest) (s : S) : b.Leads s [] (dispatch b r s).2 := by
  -- One case for each method that the face serves.
  unfold dispatch
  dsimp only
  split
  · exact .start
  split
  · rw [S3.answer_snd]
    exact leads_propfind _ _ s
  split
  · split
    · exact leads_writeObjectGet _ _ _ s
    · exact .start
  split
  · split
    · rw [S3.answer_snd]
      exact (Buckets.Reads.head _ _ s).leads
    · rw [S3.answer_snd]
      exact (Buckets.Reads.list _ _ s).leads
    · exact .start
  split <;> exact .start

end Dav

section

variable [Sha2] {S : Type}

/--
The write that a connection is entitled to: its request is signed, is not for the WebDAV
face, and puts or deletes.
-/
def Gateway.signedWrite (c : Creds) (reads : List (Except String Bytes)) : Option S3.Operation :=
  match readRequest reads with
  | .ok r =>
    if Dav.wantsDav r = false ∧ SigV4.verify c r = .ok () ∧ (S3.operation r).writes
      then some (S3.operation r) else none
  | .error _ => none

/-- One connection writes what it is entitled to, and nothing else. -/
theorem Gateway.leads_step (c : Creds) (b : Buckets S) (reads : List (Except String Bytes))
    (s : S) :
    b.Leads s (signedWrite c reads).toList ((listener (some c) b).step s reads).2 := by
  -- A stream that does not read and a request that is refused make no call.
  simp only [listener, handleStream, signedWrite]
  cases read : readRequest reads with
  | error e => cases e <;> exact .start
  | ok r =>
    dsimp only
    unfold serve
    cases dav : Dav.wantsDav r with
    | true =>
      cases checked : Dav.checkBasic c r with
      | error e => simpa [checked] using Buckets.Leads.start
      | ok u => simpa [checked] using Dav.leads_dispatch r s
    | false =>
      cases checked : SigV4.verify c r with
      | error e => simpa [checked] using Buckets.Leads.start
      | ok u =>
        have performed := leads_perform (b := b) r.headers["range".toList]? (S3.operation r) s
        rw [← S3.dispatch_eq] at performed
        cases writes : (S3.operation r).writes with
        | true => simpa [checked, writes] using performed
        | false => simpa [checked, writes] using performed

/--
Only signed requests write, in any run of connections to a listener with credentials.

Of all calls that are made on the buckets, those that put or delete are just the ones the signed
requests stand for, in the order they came; a name and a password let nobody write, nor does
anything that is sent to the WebDAV face.
-/
theorem only_signed_requests_write (c : Creds) (b : Buckets S) (s : S)
    (connections : List (List (Except String Bytes))) :
    b.Leads s (connections.filterMap (Gateway.signedWrite c))
      ((Gateway.listener (some c) b).run s connections) := by
  -- Induction over the connections: each makes the calls of its request, and at most one of them
  -- writes.
  induction connections generalizing s with
  | nil => exact .start
  | cons reads rest ih =>
    have first := Gateway.leads_step c b reads s
    rw [Machine.run_cons, List.filterMap_cons]
    have both := first.trans (ih _)
    cases is : Gateway.signedWrite c reads with
    | none => simpa [is] using both
    | some op => simpa [is] using both

end

end NasTools
