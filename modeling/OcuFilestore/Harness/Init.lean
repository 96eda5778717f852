import Mathlib.Logic.Function.Basic
import OcuFilestore.Harness.Jwtmint
import OcuFilestore.Lib.Environment
import OcuFilestore.Lib.System

/-!
# OcuFilestore.Harness.Init

The bringup step of the harness (`test/harness/cmd/harness-init`): it writes a
certificate authority, a leaf per service, two signing keys, the weak session
tokens and the guest config into one directory, and leaves a set that is there
already unless it is about to expire.

A run is a program over the clock, the random source and the file system.
Certificates and tokens are kept as what was signed; keys are told apart by
numbers.  `stands` are the histories of runs on one directory, where a run may
stop at any point; each file remembers the run that wrote it.
-/

namespace OcuFilestore.HarnessInit

open Jwtmint (Claims cpIssuer cpAudience)

/-! ## what is written -/

inductive Service where
  | filestore
  | controlPlane
  | exchange
  | edge
  deriving DecidableEq, Repr

def Service.name : Service → String
  | filestore => "filestore"
  | controlPlane => "control-plane"
  | exchange => "exchange"
  | edge => "edge"

def serviceNames : List Service := [.filestore, .controlPlane, .exchange, .edge]

/-- The filesystem ids and intents the weak tokens are minted for. -/
def weakJWTScopes : List (String × String) :=
  [("fsrw", "write"), ("fsthrottle", "write"), ("fsro", "read"), ("fsconf", "write"),
    ("fs-fleet", "write")]

def cpKid : String := "kid-cp"

/-- The files of a set. -/
inductive Artifact where
  | caPEM
  | cert (s : Service)
  | key (s : Service)
  | signingKey
  | credentialKey
  | weakTokens
  | guestConfig
  deriving DecidableEq, Repr

def Artifact.name : Artifact → String
  | caPEM => "ca.pem"
  | cert s => s.name ++ ".cert.pem"
  | key s => s.name ++ ".key.pem"
  | signingKey => "control-plane.signing.key.pem"
  | credentialKey => "exchange.credential.key.pem"
  | weakTokens => "weak-tokens.json"
  | guestConfig => "guest-config.json"

/-- A certificate: the key that signed it, its own key, and its end, which is
encoded in whole seconds. -/
structure Cert where
  signer : Nat
  key : Nat
  notAfter : Time
  deriving DecidableEq, Repr

structure Token where
  signer : Nat
  kid : String
  claims : Claims
  deriving DecidableEq, Repr

/-- The rendered guest config, as far as it is rendered: each mount with its
filesystem id and token. -/
structure GuestConfig where
  serviceURL : String
  caCertPEM : Cert
  mounts : List (String × Token)
  deriving DecidableEq, Repr

inductive Content where
  | cert (c : Cert)
  | key (k : Nat)
  | tokens (ts : List (String × Token))
  | config (c : GuestConfig)
  deriving DecidableEq, Repr

/-! ## effects -/

/-- A mount of the template; the filesystem id is missing when it is no
string. -/
inductive TemplateMount where
  | notObject
  | object (filesystemID : Option String)
  deriving DecidableEq, Repr

/-- What the template file holds. -/
inductive Template where
  | notJSON (e : Err)
  | null
  | noMounts
  | mounts (ms : List TemplateMount)
  deriving DecidableEq, Repr

/-- The outcome of `os.Stat`. -/
inductive Stat where
  | present
  | notExist
  | failed (e : Err)
  deriving DecidableEq, Repr

inductive Eff where
  | mkdirAll
  | now
  | stat (a : Artifact)
  | readFile (a : Artifact)
  | generateKey
  | randomSerial
  | createCertificate
  | sign
  | writeFile (a : Artifact) (c : Content)
  | readTemplate
  deriving DecidableEq, Repr

def Eff.Reply : Eff → Type
  | now => Time
  | stat _ => Stat
  | readFile _ => Except Err Content
  | generateKey => Except Err Nat
  | readTemplate => Except Err Template
  | mkdirAll | randomSerial | createCertificate | sign | writeFile _ _ => Except Err Unit

/-- Programs that can end in an error. -/
abbrev InitM (α : Type) : Type := ExceptT Err (Prog Eff.Reply) α

def time : InitM Time := ExceptT.lift (.perform Eff.now)
def stat (a : Artifact) : InitM Stat := ExceptT.lift (.perform (Eff.stat a))
def readFile (a : Artifact) : InitM (Except Err Content) := ExceptT.lift (.perform (Eff.readFile a))
def mkdirAll : InitM Unit := ExceptT.mk (.perform Eff.mkdirAll)
def generateKey : InitM Nat := ExceptT.mk (.perform Eff.generateKey)
def randomSerial : InitM Unit := ExceptT.mk (.perform Eff.randomSerial)
def createCertificate : InitM Unit := ExceptT.mk (.perform Eff.createCertificate)
def sign : InitM Unit := ExceptT.mk (.perform Eff.sign)
def writeFile (a : Artifact) (c : Content) : InitM Unit := ExceptT.mk (.perform (Eff.writeFile a c))
def readTemplate : InitM Template := ExceptT.mk (.perform Eff.readTemplate)

/-- `fmt.Errorf` with the cause at the end. -/
def errorf {α : Type} (pre : List Frag) (x : InitM α) : InitM α :=
  Prog.mapErr (fun e => .wrap pre e []) x

/-! ## the certificate authority -/

def defaultCertTTL : Int := 24 * hour

structure CA where
  cert : Cert
  key : Nat
  leafTTL : Int

/-- The end of a validity window as a certificate encodes it. -/
def certNotAfter (now : Time) (ttl : Int) : Time := ofUnix (Time.unix (now + ttl))

def newWithTTL (ttl : Int) : InitM CA := do
  let ttl := if ttl ≤ 0 then defaultCertTTL else ttl
  let key ← errorf [.lit "localca: generate CA key: "] generateKey
  errorf [.lit "localca: serial: "] randomSerial
  let now ← time
  errorf [.lit "localca: self-sign CA: "] createCertificate
  return ⟨⟨key, key, certNotAfter now ttl⟩, key, ttl⟩

def CA.issueLeaf (ca : CA) : InitM (Cert × Nat) := do
  let leafKey ← errorf [.lit "localca: generate leaf key: "] generateKey
  errorf [.lit "localca: serial: "] randomSerial
  let now ← time
  errorf [.lit "localca: sign leaf: "] createCertificate
  return (⟨ca.key, leafKey, certNotAfter now ca.leafTTL⟩, leafKey)

/-- The leaf of one service after the other, its certificate before its key. -/
def writeLeaves (ca : CA) : List Service → InitM Unit
  | [] => return ()
  | s :: ss => do
      let (leafCert, leafKey) ← errorf [.lit "issue ", .str s.name, .lit " leaf: "] ca.issueLeaf
      errorf [.lit "write ", .str s.name, .lit " cert: "] (writeFile (.cert s) (.cert leafCert))
      errorf [.lit "write ", .str s.name, .lit " key: "] (writeFile (.key s) (.key leafKey))
      writeLeaves ca ss

/-! ## the weak tokens -/

/-- Tokens live as long as the certificates, but no shorter than twelve
hours. -/
def weakTokenTTL (certTTL : Int) : Int := if certTTL < 12 * hour then 12 * hour else certTTL

def mintTokens (cpKey : Nat) (now : Time) (ttl : Int) :
    List (String × String) → InitM (List (String × Token))
  | [] => return []
  | (fsid, intent) :: scopes => do
      errorf [.lit "mint weak JWT for ", .str fsid, .lit ": "] sign
      let tok : Token := ⟨cpKey, cpKid,
        ⟨cpIssuer, cpAudience, fsid.toList, now.unix, Time.unix (now + ttl), fsid.toList,
          intent.toList, [], false⟩⟩
      return (fsid, tok) :: (← mintTokens cpKey now ttl scopes)

/-! ## the guest config -/

/-- Each mount gets the token of its filesystem id. -/
def renderMounts (tokens : List (String × Token)) :
    Nat → List TemplateMount → Except Err (List (String × Token))
  | _, [] => .ok []
  | i, .notObject :: _ => .error (.text [.lit "fixture: mount ", .int i, .lit " is not an object"])
  | i, .object fsid :: ms =>
      let fsid := fsid.getD ""
      if fsid = "" then
        .error (.text [.lit "fixture: mount ", .int i, .lit " has no filesystem_id"])
      else
        match tokens.lookup fsid with
        | none => .error (.text [.lit "fixture: no minted weak JWT for mount ", .int i,
            .lit " filesystem_id ", .quoted fsid.toList])
        | some tok => do return (fsid, tok) :: (← renderMounts tokens (i + 1) ms)

def render (template : Template) (serviceURL : String) (ca : Cert)
    (tokens : List (String × Token)) : Except Err GuestConfig :=
  match template with
  | .notJSON e => .error (.wrap [.lit "fixture: parse template: "] e [])
  | .null => .error (.text [.lit "assignment to entry in nil map"])
  | .noMounts => .error (.text [.lit "fixture: template has no mounts array"])
  | .mounts ms => do return ⟨serviceURL, ca, ← renderMounts tokens 0 ms⟩

/-- The template is read only here, when the rest of the set is written. -/
def renderFile (templatePath : String) (serviceURL : String) (ca : Cert)
    (tokens : List (String × Token)) : InitM Unit := do
  let template ← errorf
    [.lit "fixture: read template ", .quoted templatePath.toList, .lit ": "] readTemplate
  let rendered ← ExceptT.mk (.ret (render template serviceURL ca tokens))
  errorf [.lit "fixture: write ", .quoted Artifact.guestConfig.name.toList, .lit ": "]
    (writeFile .guestConfig (.config rendered))

/-! ## whether a set is needed -/

/-- The end of a certificate file. -/
def leafNotAfter (a : Artifact) : InitM (Except Err Time) := do
  match ← readFile a with
  | .error e => return .error e
  | .ok (.cert c) => return .ok c.notAfter
  | .ok _ => return .error (.text [.lit "no CERTIFICATE PEM block in ", .str a.name])

/-- The earliest end among the tokens; the zero time counts as none yet. -/
def earliestExpiry : Time → List (String × Token) → Except Err Time
  | earliest, [] => .ok earliest
  | earliest, (fsid, tok) :: ts =>
      if tok.claims.expiry = 0 then
        .error (.text [.lit "weak JWT for ", .str fsid, .lit " carries no expiry"])
      else
        let notAfter := ofUnix tok.claims.expiry
        earliestExpiry (if earliest = zeroTime ∨ notAfter < earliest then notAfter else earliest) ts

/-- The end of the token file, or why there is none. -/
def weakTokensNotAfter : InitM (Except Err Time) := do
  match ← readFile .weakTokens with
  | .error e => return .error (.wrap [.lit "weak-tokens.json unreadable ("] e [.lit ")"])
  | .ok (.tokens []) => return .error (.text [.lit "weak-tokens.json carries no tokens"])
  | .ok (.tokens ts) => return earliestExpiry zeroTime ts
  | .ok _ => return .error (.text [.lit "weak-tokens.json is not JSON"])

/-- Whether the set must be produced, and the reason that is printed.  Only
the guest config, one leaf and the tokens are looked at. -/
def needsReissue (renewBefore : Int) (now : Time) : InitM (Bool × Err) := do
  match ← stat .guestConfig with
  | .notExist => return (true, .text [.lit "no rendered set present"])
  | .failed e => throw (.wrap [.lit "stat guest-config marker: "] e [])
  | .present =>
      if renewBefore ≤ 0 then return (false, .text [])
      match ← leafNotAfter (.cert .filestore) with
      | .error e => return (true, .wrap [.lit "leaf ", .str (Artifact.cert .filestore).name,
          .lit " unreadable ("] e [.lit ")"])
      | .ok notAfter =>
          if notAfter.sub now < renewBefore then
            return (true, .text [.lit "leaf expires in ", .int (notAfter.sub now),
              .lit " (< renew-before ", .int renewBefore, .lit ")"])
          match ← weakTokensNotAfter with
          | .error why => return (true, why)
          | .ok tokenNotAfter =>
              if tokenNotAfter.sub now < renewBefore then
                return (true, .text [.lit "weak JWT expires in ", .int (tokenNotAfter.sub now),
                  .lit " (< renew-before ", .int renewBefore, .lit ")"])
              return (false, .text [])

/-! ## a run -/

/-- The flags of a run. -/
structure Flags where
  edgeHost : String
  edgePort : Int
  fixtureTemplate : String
  certTTL : Int
  renewBefore : Int

/-- Produce the set, one file after the other; the guest config is the last. -/
def issue (flags : Flags) : InitM Unit := do
  let ca ← newWithTTL flags.certTTL
  errorf [.lit "write ca.pem: "] (writeFile .caPEM (.cert ca.cert))
  writeLeaves ca serviceNames
  let cpKey ← errorf [.lit "control-plane key: "] generateKey
  errorf [.lit "write control-plane signing key: "] (writeFile .signingKey (.key cpKey))
  let credKey ← errorf [.lit "exchange credential key: "] generateKey
  errorf [.lit "write exchange credential signing key: "] (writeFile .credentialKey (.key credKey))
  let now ← time
  let tokens ← mintTokens cpKey now (weakTokenTTL flags.certTTL) weakJWTScopes
  errorf [.lit "write weak tokens: "] (writeFile .weakTokens (.tokens tokens))
  renderFile flags.fixtureTemplate ("https://" ++ flags.edgeHost ++ ":" ++ toString flags.edgePort)
    ca.cert tokens

def run (flags : Flags) : InitM Unit := do
  errorf [.lit "create out dir: "] mkdirAll
  let now ← time
  let (reissue, _) ← needsReissue flags.renewBefore now
  if reissue then
    -- a marker that is there only decides about a line of output
    let _ ← stat .guestConfig
    issue flags

/-! ## the directory -/

/-- The files, each with the number of the run that wrote it. -/
abbrev Disk := Artifact → Option (Nat × Content)

/-- The file was written by this run. -/
def From (i : Nat) (d : Disk) (a : Artifact) : Prop := ∃ c, d a = some (i, c)

/-- The directory under run `i`.  A file is written as a whole or not at all;
everything can fail. -/
def volume (i : Nat) : Env Eff.Reply Disk
  | d, .stat a, r, d' => d' = d ∧ (r = .present → d a ≠ none) ∧ (r = .notExist → d a = none)
  | d, .readFile a, r, d' => d' = d ∧ ∀ c, r = .ok c → ∃ j, d a = some (j, c)
  | d, .writeFile a c, r, d' =>
      (∃ e, r = .error e) ∧ d' = d ∨ r = .ok () ∧ d' = Function.update d a (some (i, c))
  | d, _, _, d' => d' = d

/-- The disk changes by the files of the run only. -/
theorem volume_cases {i : Nat} {d d' : Disk} {e : Eff} {r : e.Reply} (h : volume i d e r d') :
    d' = d ∨ ∃ a c, e = .writeFile a c ∧ d' = Function.update d a (some (i, c)) := by
  cases e with
  | stat a => exact Or.inl h.1
  | readFile a => exact Or.inl h.1
  | writeFile a c =>
      rcases h with ⟨-, h⟩ | ⟨-, h⟩
      · exact Or.inl h
      · exact Or.inr ⟨a, c, rfl, h⟩
  | mkdirAll | now | generateKey | randomSerial | createCertificate | sign | readTemplate =>
      exact Or.inl h

/-- What a run writes is from that run, and so is what was. -/
theorem from_update {i : Nat} {d : Disk} {a : Artifact} {c : Content} {b : Artifact}
    (h : b = a ∨ From i d b) : From i (Function.update d a (some (i, c))) b := by
  by_cases hb : b = a
  · subst hb
    exact ⟨c, Function.update_self ..⟩
  · obtain ⟨c', hc'⟩ := h.resolve_left hb
    exact ⟨c', (Function.update_of_ne hb _ _).trans hc'⟩

/-! ## the order of the writes -/

/-- The guest config is written when the rest of the set is there. -/
def InOrder (i : Nat) : Disk → Eff → Prop
  | d, .writeFile .guestConfig _ => ∀ a, a ≠ .guestConfig → From i d a
  | _, _ => True

section Order

variable {i : Nat} {α β : Type}

/-- Programs that write nothing. -/
def Quiet (x : InitM α) : Prop :=
  ∀ i d, Prog.Tries (volume i) (InOrder i) (fun d' _ => d' = d) d x

/-- Quiet programs compose. -/
theorem Quiet.bind {x : InitM α} {f : α → InitM β} (hx : Quiet x) (hf : ∀ a, Quiet (f a)) :
    Quiet (x >>= f) := by
  intro i d
  refine (hx i d).bind ?_
  rintro d' a rfl
  exact hf a i d'

/-- Wrapping an error writes nothing. -/
theorem Quiet.errorf {x : InitM α} (hx : Quiet x) (pre : List Frag) : Quiet (errorf pre x) :=
  fun i d => (hx i d).mapErr _

theorem quiet_pure (a : α) : Quiet (pure a : InitM α) := fun _ _ => Prog.tries_pure rfl

/-- Every effect but a write leaves the disk as it is. -/
theorem quiet_effect (e : Eff) (he : ∀ a c, e ≠ .writeFile a c) (f : e.Reply → Except Err α) :
    Quiet (ExceptT.mk (.op e fun r => .ret (f r))) := by
  refine fun i d => ⟨?_, fun r d' h _ _ => ?_⟩
  · cases e with
    | writeFile a c => exact absurd rfl (he a c)
    | _ => trivial
  · rcases volume_cases h with h | ⟨a, c, h, -⟩
    · exact h
    · exact absurd h (he a c)

theorem quiet_time : Quiet time := quiet_effect .now nofun _
theorem quiet_generateKey : Quiet generateKey := quiet_effect .generateKey nofun _
theorem quiet_randomSerial : Quiet randomSerial := quiet_effect .randomSerial nofun _
theorem quiet_createCertificate : Quiet createCertificate := quiet_effect .createCertificate nofun _
theorem quiet_sign : Quiet sign := quiet_effect .sign nofun _
theorem quiet_mkdirAll : Quiet mkdirAll := quiet_effect .mkdirAll nofun _
theorem quiet_readTemplate : Quiet readTemplate := quiet_effect .readTemplate nofun _
theorem quiet_stat (a : Artifact) : Quiet (stat a) := quiet_effect (.stat a) nofun _
theorem quiet_readFile (a : Artifact) : Quiet (readFile a) := quiet_effect (.readFile a) nofun _

/-- A new authority is made in memory. -/
theorem quiet_newWithTTL (ttl : Int) : Quiet (newWithTTL ttl) :=
  (quiet_generateKey.errorf _).bind fun _ => (quiet_randomSerial.errorf _).bind fun _ =>
    quiet_time.bind fun _ => (quiet_createCertificate.errorf _).bind fun _ => quiet_pure _

/-- So is a leaf certificate. -/
theorem quiet_issueLeaf (ca : CA) : Quiet ca.issueLeaf :=
  (quiet_generateKey.errorf _).bind fun _ => (quiet_randomSerial.errorf _).bind fun _ =>
    quiet_time.bind fun _ => (quiet_createCertificate.errorf _).bind fun _ => quiet_pure _

/-- So are the tokens. -/
theorem quiet_mintTokens (cpKey : Nat) (now : Time) (ttl : Int) (scopes : List (String × String)) :
    Quiet (mintTokens cpKey now ttl scopes) := by
  induction scopes with
  | nil => exact quiet_pure _
  | cons sc scopes ih =>
      exact (quiet_sign.errorf _).bind fun _ => ih.bind fun _ => quiet_pure _

/-- Checking what is there writes nothing. -/
theorem quiet_needsReissue (renewBefore : Int) (now : Time) :
    Quiet (needsReissue renewBefore now) := by
  refine (quiet_stat _).bind fun st => ?_
  cases st with
  | notExist => exact quiet_pure _
  | failed e => exact fun _ _ => Prog.tries_throw _ _
  | present =>
      dsimp only
      split
      · exact quiet_pure _
      · refine Quiet.bind ?_ fun leaf => ?_
        · refine (quiet_readFile _).bind fun r => ?_
          split <;> exact quiet_pure _
        · split
          · exact quiet_pure _
          · split
            · exact quiet_pure _
            · refine Quiet.bind ?_ fun tokens => ?_
              · refine (quiet_readFile _).bind fun r => ?_
                split <;> exact quiet_pure _
              · split
                · exact quiet_pure _
                · split <;> exact quiet_pure _

/-- These files are the run's. -/
def Wrote (i : Nat) (done : List Artifact) (d : Disk) : Prop := ∀ a ∈ done, From i d a

/-- A quiet program leaves what was written. -/
theorem Quiet.wrote {x : InitM α} (hx : Quiet x) {done : List Artifact} {d : Disk}
    (h : Wrote i done d) :
    Prog.Tries (volume i) (InOrder i) (fun d' _ => Wrote i done d') d x :=
  (hx i d).mono fun _ _ hd => hd ▸ h

/-- Writing an artifact adds it to what the run has written. -/
theorem tries_writeFile {done : List Artifact} {d : Disk} (h : Wrote i done d) {a : Artifact}
    {c : Content} (hlast : a = .guestConfig → ∀ b, b ≠ .guestConfig → From i d b)
    (pre : List Frag) :
    Prog.Tries (volume i) (InOrder i) (fun d' _ => Wrote i (a :: done) d') d
      (errorf pre (writeFile a c)) := by
  have hok : InOrder i d (.writeFile a c) := by
    cases a with
    | guestConfig => exact hlast rfl
    | _ => trivial
  refine Prog.Tries.mapErr (x := writeFile a c) ⟨hok, fun r d' hv u hu => ?_⟩ _
  rcases hv with ⟨⟨e, he⟩, -⟩ | ⟨-, rfl⟩
  · cases he.symm.trans hu
  · intro b hb
    exact from_update ((List.mem_cons.mp hb).imp id (h b))

/-- The two files of each service. -/
def leafFiles : List Service → List Artifact
  | [] => []
  | s :: ss => .cert s :: .key s :: leafFiles ss

/-- Each service gets its two files. -/
theorem tries_writeLeaves (ca : CA) (ss : List Service) {done : List Artifact} {d : Disk}
    (h : Wrote i done d) :
    Prog.Tries (volume i) (InOrder i) (fun d' _ => Wrote i (leafFiles ss ++ done) d') d
      (writeLeaves ca ss) := by
  induction ss generalizing done d with
  | nil => exact Prog.tries_pure h
  | cons s ss ih =>
      refine (((quiet_issueLeaf ca).errorf _).wrote h).bind fun d₁ leaf h₁ => ?_
      refine (tries_writeFile h₁ (a := .cert s) nofun _).bind fun d₂ _ h₂ => ?_
      refine (tries_writeFile h₂ (a := .key s) nofun _).bind fun d₃ _ h₃ => ?_
      refine (ih h₃).mono fun d' _ h' a ha => h' a ?_
      simp only [leafFiles, List.cons_append, List.mem_cons, List.mem_append] at ha ⊢
      grind

/-- The guest configuration is rendered when all else is from this run. -/
theorem tries_renderFile (path url : String) (ca : Cert) (tokens : List (String × Token))
    {d : Disk} (h : ∀ a, a ≠ .guestConfig → From i d a) :
    Prog.Tries (volume i) (InOrder i) (fun _ _ => True) d (renderFile path url ca tokens) := by
  refine ((quiet_readTemplate.errorf _) i d).bind ?_
  rintro d template rfl
  have hrender : Prog.Tries (volume i) (InOrder i) (fun d' _ => d' = d) d
      (ExceptT.mk (.ret (render template url ca tokens)) : InitM GuestConfig) := fun _ _ => rfl
  refine hrender.bind ?_
  rintro d rendered rfl
  have hnone : Wrote i [] d := by simp [Wrote]
  exact (tries_writeFile hnone (fun _ => h) _).mono fun _ _ _ => trivial

/-- When the config is rendered, every other file of the set is the run's. -/
theorem tries_issue (flags : Flags) (d : Disk) :
    Prog.Tries (volume i) (InOrder i) (fun _ _ => True) d (issue flags) := by
  have h₀ : Wrote i [] d := List.forall_mem_nil _
  refine ((quiet_newWithTTL flags.certTTL).wrote h₀).bind fun d₁ ca h₁ => ?_
  refine (tries_writeFile h₁ (a := .caPEM) nofun _).bind fun d₂ _ h₂ => ?_
  refine (tries_writeLeaves ca serviceNames h₂).bind fun d₃ _ h₃ => ?_
  refine ((quiet_generateKey.errorf _).wrote h₃).bind fun d₄ cpKey h₄ => ?_
  refine (tries_writeFile h₄ (a := .signingKey) nofun _).bind fun d₅ _ h₅ => ?_
  refine ((quiet_generateKey.errorf _).wrote h₅).bind fun d₆ credKey h₆ => ?_
  refine (tries_writeFile h₆ (a := .credentialKey) nofun _).bind fun d₇ _ h₇ => ?_
  refine (quiet_time.wrote h₇).bind fun d₈ now h₈ => ?_
  refine ((quiet_mintTokens _ _ _ _).wrote h₈).bind fun d₉ tokens h₉ => ?_
  refine (tries_writeFile h₉ (a := .weakTokens) nofun _).bind fun d' _ h' => ?_
  refine tries_renderFile _ _ _ _ fun a ha => h' a ?_
  cases a with
  | guestConfig => exact absurd rfl ha
  | cert s => cases s <;> decide
  | key s => cases s <;> decide
  | _ => decide

/-- Every run writes its artifacts in order. -/
theorem tries_run (flags : Flags) (i : Nat) (d : Disk) :
    Prog.Tries (volume i) (InOrder i) (fun _ _ => True) d (run flags) := by
  refine ((quiet_mkdirAll.errorf _) i d).bind fun d₁ _ _ => ?_
  refine (quiet_time i d₁).bind fun d₂ now _ => ?_
  refine (quiet_needsReissue flags.renewBefore now i d₂).bind fun d₃ r _ => ?_
  dsimp only
  split
  · exact (quiet_stat _ i d₃).bind fun d₄ _ _ => tries_issue flags d₄
  · exact Prog.tries_pure trivial

end Order

/-! ## histories of runs -/

/-- A directory with the runs on it: how many have been started, and what is
left of the last one if it has not stopped. -/
structure Stand where
  disk : Disk
  runs : Nat
  active : Option (Prog Eff.Reply (Except Err Unit))

/-- A run may stop at any point: by its end, by an error, or by a crash. -/
inductive Step : Stand → Stand → Prop
  | start {s : Stand} (flags : Flags) (h : s.active = none) :
      Step s ⟨s.disk, s.runs + 1, some (run flags).run⟩
  | effect {s : Stand} {e : Eff} {k : e.Reply → Prog Eff.Reply (Except Err Unit)} {r : e.Reply}
      {d' : Disk} (h : s.active = some (.op e k)) (hv : volume s.runs s.disk e r d') :
      Step s ⟨d', s.runs, some (k r)⟩
  | stop {s : Stand} {p : Prog Eff.Reply (Except Err Unit)} (h : s.active = some p) :
      Step s ⟨s.disk, s.runs, none⟩

/-- Runs on a directory that is empty at first. -/
def stands : System Stand where
  init s := s = ⟨fun _ => none, 0, none⟩
  step := Step

/-- All files come from one run. -/
def Coherent (d : Disk) : Prop := ∃ i, ∀ a, From i d a

/-- The last run has begun to write, and the guest config is an earlier
run's. -/
def Torn (s : Stand) : Prop :=
  (∃ a, From s.runs s.disk a) ∧ ∃ j c, s.disk .guestConfig = some (j, c) ∧ j ≠ s.runs

/-- No run stops while it replaces an earlier set. -/
def Untorn (s s' : Stand) : Prop := s'.active = none → ¬ Torn s

structure Stand.Inv (s : Stand) : Prop where
  bound : ∀ a j c, s.disk a = some (j, c) → j ≤ s.runs
  idle : s.active = none → s.disk .guestConfig ≠ none → Coherent s.disk
  order : ∀ p, s.active = some p →
    p.Safe (volume s.runs) (InOrder s.runs) (fun _ _ => True) s.disk
  last : From s.runs s.disk .guestConfig → ∀ a, From s.runs s.disk a
  before : (∀ a, ¬ From s.runs s.disk a) → s.disk .guestConfig ≠ none → Coherent s.disk

namespace Stand.Inv

variable {s s' : Stand}

/-- A new run has written nothing yet. -/
theorem start (inv : s.Inv) (h : s.active = none) (flags : Flags) :
    Inv ⟨s.disk, s.runs + 1, some (run flags).run⟩ := by
  have hnew : ∀ a, ¬ From (s.runs + 1) s.disk a := by
    rintro a ⟨c, hc⟩
    exact absurd (inv.bound a _ c hc) (Nat.not_succ_le_self _)
  refine ⟨fun a j c hc => Nat.le_succ_of_le (inv.bound a j c hc), nofun, ?_,
    fun hlast => absurd hlast (hnew _), fun _ => inv.idle h⟩
  rintro _ ⟨⟩
  exact Prog.Safe.mono (tries_run flags _ _) (fun _ _ hok => hok) fun _ _ _ => trivial

/-- Writing the guest config completes the set. -/
theorem effect (inv : s.Inv) {e : Eff} {k : e.Reply → Prog Eff.Reply (Except Err Unit)}
    {r : e.Reply} {d' : Disk} (h : s.active = some (.op e k)) (hv : volume s.runs s.disk e r d') :
    Inv ⟨d', s.runs, some (k r)⟩ := by
  obtain ⟨hok, hk⟩ := inv.order _ h
  have horder : ∀ p, some (k r) = some p →
      p.Safe (volume s.runs) (InOrder s.runs) (fun _ _ => True) d' := by
    rintro _ ⟨⟩
    exact hk r d' hv
  rcases volume_cases hv with rfl | ⟨a, c, rfl, rfl⟩
  · exact ⟨inv.bound, nofun, horder, inv.last, inv.before⟩
  · refine ⟨fun b j c' hb => ?_, nofun, horder, fun hlast b => ?_, fun hnone => ?_⟩
    · dsimp only at hb
      rw [Function.update_apply] at hb
      split at hb
      · cases hb
        exact Nat.le_refl _
      · exact inv.bound b j c' hb
    · refine from_update ?_
      by_cases ha : a = .guestConfig
      · subst ha
        exact or_iff_not_imp_left.mpr (hok b)
      · obtain ⟨c', hc'⟩ := hlast
        dsimp only at hc'
        rw [Function.update_of_ne (Ne.symm ha)] at hc'
        exact Or.inr (inv.last ⟨c', hc'⟩ b)
    · exact absurd ⟨c, Function.update_self ..⟩ (hnone a)

/-- A run that does not stop half way over an earlier set leaves one set, or
no guest config. -/
theorem stop (inv : s.Inv) (h : ¬ Torn s) : Inv ⟨s.disk, s.runs, none⟩ := by
  refine ⟨inv.bound, fun _ hmarker => ?_, nofun, inv.last, inv.before⟩
  obtain ⟨⟨j, c⟩, hc⟩ := Option.ne_none_iff_exists'.mp hmarker
  by_cases hwrote : ∃ a, From s.runs s.disk a
  · have hj : j = s.runs := Decidable.byContradiction fun hj => h ⟨hwrote, j, c, hc, hj⟩
    exact ⟨s.runs, inv.last ⟨c, hj ▸ hc⟩⟩
  · exact inv.before (not_exists.mp hwrote) hmarker

/-- A step that tears no write keeps the invariant. -/
theorem step (inv : s.Inv) (hs : Step s s') (hu : Untorn s s') : s'.Inv := by
  cases hs with
  | start flags h => exact inv.start h flags
  | effect h hv => exact inv.effect h hv
  | stop h => exact inv.stop (hu rfl)

end Stand.Inv

/-- A set is left in place only if its guest config is there. -/
theorem marker_of_not_needsReissue {i : Nat} {d d' : Disk} {renewBefore : Int} {now : Time}
    {why : Err}
    (h : Prog.EvalsTo (volume i) d (needsReissue renewBefore now).run d' (.ok (false, why))) :
    d .guestConfig ≠ none := by
  cases h with
  | @step _ _ _ _ _ st _ hv hr =>
      cases st with
      | present => exact hv.2.1 rfl
      | notExist => nomatch hr
      | failed e => nomatch hr

/-- **Coherent sets**: over every history of runs, of any flags and at any
times, in which no run stops while it replaces an earlier set, whenever a set
is left in place all its files come from one run. -/
theorem coherent_of_not_needsReissue {s : Stand} (h : (stands.restrict Untorn).Reachable s)
    (hidle : s.active = none) {renewBefore : Int} {now : Time} {d' : Disk} {why : Err}
    (hleft : Prog.EvalsTo (volume (s.runs + 1)) s.disk (needsReissue renewBefore now).run d'
      (.ok (false, why))) :
    Coherent s.disk := by
  have inv : s.Inv := by
    refine h.invariant (S := stands.restrict Untorn) (P := Stand.Inv) ?_
      fun _ _ _ inv hs => inv.step hs.1 hs.2
    rintro _ rfl
    exact ⟨nofun, fun _ h => absurd rfl h, nofun, nofun, fun _ h => absurd rfl h⟩
  exact inv.idle hidle (marker_of_not_needsReissue hleft)

/-! ## two runs -/

/-- A directory that answers what is there. -/
def statOf : Option (Nat × Content) → Stat
  | some _ => .present
  | none => .notExist

def contentOf : Option (Nat × Content) → Except Err Content
  | some (_, c) => .ok c
  | none => .error (.text [.lit "no such file or directory"])

def artifacts : List Artifact :=
  .caPEM :: serviceNames.map .cert ++ serviceNames.map .key ++
    [.signingKey, .credentialKey, .weakTokens, .guestConfig]

/-- A number for the next key of run `i`.  A run writes a file between any two
keys, so no two of its keys have the same number. -/
def nextKey (i : Nat) (d : Disk) : Nat :=
  100 * i + artifacts.countP fun a => (d a).any fun file => file.1 == i

/-- Run `i` at a fixed time, where nothing fails but possibly the template. -/
def answers (i : Nat) (t : Time) (template : Except Err Template) :
    Disk → (e : Eff) → e.Reply × Disk
  | d, .now => (t, d)
  | d, .stat a => (statOf (d a), d)
  | d, .readFile a => (contentOf (d a), d)
  | d, .generateKey => (.ok (nextKey i d), d)
  | d, .writeFile a c => (.ok (), Function.update d a (some (i, c)))
  | d, .readTemplate => (template, d)
  | d, .mkdirAll => (.ok (), d)
  | d, .randomSerial => (.ok (), d)
  | d, .createCertificate => (.ok (), d)
  | d, .sign => (.ok (), d)

/-- The fixed answers are answers of the volume. -/
theorem volume_answers (i : Nat) (t : Time) (template : Except Err Template) (d : Disk) (e : Eff) :
    volume i d e (answers i t template d e).1 (answers i t template d e).2 := by
  cases e with
  | stat a =>
      show d = d ∧ (statOf (d a) = .present → d a ≠ none) ∧ (statOf (d a) = .notExist → d a = none)
      cases d a <;> simp [statOf]
  | readFile a =>
      show d = d ∧ ∀ c, contentOf (d a) = .ok c → ∃ j, d a = some (j, c)
      rcases d a with _ | ⟨j, c⟩ <;> simp [contentOf]
  | writeFile a c => exact Or.inr ⟨rfl, rfl⟩
  | mkdirAll | now | generateKey | randomSerial | createCertificate | sign | readTemplate => rfl

/-- The run in progress takes its effects. -/
theorem reachable_run {P : Stand → Stand → Prop} (hP : ∀ s s', s'.active ≠ none → P s s')
    {d d' : Disk} {n : Nat} {p p' : Prog Eff.Reply (Except Err Unit)}
    (h : (stands.restrict P).Reachable ⟨d, n, some p⟩) (hrun : p.RunsIn (volume n) d d' p') :
    (stands.restrict P).Reachable ⟨d', n, some p'⟩ := by
  induction hrun with
  | refl d p => exact h
  | step hv _ ih => exact ih (h.step ⟨.effect rfl hv, hP _ _ nofun⟩)

def defaultFlags : Flags := ⟨"edge", 8450, "/fixtures/guest-config.json", defaultCertTTL, 2 * hour⟩

def fsrwTemplate : Template := .mounts [.object (some "fsrw")]

/-- The directory after a run. -/
def diskAfter (i : Nat) (t : Time) (template : Except Err Template) (d : Disk) : Disk :=
  (Prog.runIn (answers i t template) d (run defaultFlags).run).1

/-- What a run leaves under the fixed answers can be reached. -/
theorem reachable_diskAfter {P : Stand → Stand → Prop} (hP : ∀ s s', s'.active ≠ none → P s s')
    {d : Disk} {n : Nat} (h : (stands.restrict P).Reachable ⟨d, n, none⟩) (t : Time)
    (template : Except Err Template) :
    ∃ p, (stands.restrict P).Reachable ⟨diskAfter (n + 1) t template d, n + 1, some p⟩ :=
  ⟨_, reachable_run hP (h.step ⟨.start defaultFlags rfl, hP _ _ nofun⟩)
    (Prog.evalsTo_runIn (volume_answers (n + 1) t template) d _)⟩

/-- A set is left in place, looked at with the default flags. -/
def LeftInPlace (i : Nat) (d : Disk) (now : Time) : Prop :=
  Prog.EvalsTo (volume i) d (needsReissue defaultFlags.renewBefore now).run d
    (.ok (false, .text []))

/-- Evaluating the check shows that the artifacts are left in place. -/
theorem leftInPlace_of_runIn {i : Nat} {d : Disk} {now : Time}
    (h : Prog.runIn (answers i now (.ok fsrwTemplate)) d
        (needsReissue defaultFlags.renewBefore now).run = (d, .ok (false, .text []))) :
    LeftInPlace i d now := by
  have hrun := Prog.evalsTo_runIn (volume_answers i now (.ok fsrwTemplate)) d
    (needsReissue defaultFlags.renewBefore now).run
  rwa [h] at hrun

/-- The set of a first run at time zero. -/
def firstSet : Disk := diskAfter 1 0 (.ok fsrwTemplate) fun _ => none

/-- The first set is left in place after an hour. -/
theorem coherent_of_not_needsReissue_first :
    ∃ s, (stands.restrict Untorn).Reachable s ∧ s.disk = firstSet ∧
      LeftInPlace 2 s.disk hour ∧ Coherent s.disk := by
  have hP : ∀ s s' : Stand, s'.active ≠ none → Untorn s s' := fun _ _ h h' => absurd h' h
  obtain ⟨p, h₁⟩ := reachable_diskAfter hP (.init rfl) 0 (.ok fsrwTemplate)
  have huntorn : Untorn ⟨firstSet, 1, some p⟩ ⟨firstSet, 1, none⟩ := by
    rintro - ⟨-, j, c, hc, hj⟩
    cases hc
    exact hj rfl
  have h₂ : (stands.restrict Untorn).Reachable ⟨firstSet, 1, none⟩ := h₁.step ⟨.stop rfl, huntorn⟩
  have hleft : LeftInPlace 2 firstSet hour := leftInPlace_of_runIn rfl
  exact ⟨_, h₂, rfl, hleft, coherent_of_not_needsReissue h₂ rfl hleft⟩

/-- What a second run leaves 23 hours later when the template cannot be
read. -/
def tornSet : Disk :=
  diskAfter 2 (23 * hour) (.error (.text [.lit "no such file or directory"])) firstSet

/-- A set is replaced one hour before it expires, and the run fails at the
template: the guest config of the first set stays next to the files of the
second, and from then on the mixture is left in place. -/
theorem torn_set_left_in_place :
    ∃ s, stands.Reachable s ∧ s.active = none ∧ s.disk = tornSet ∧
      LeftInPlace 3 s.disk (23 * hour) ∧ ¬ Coherent s.disk := by
  have hP : ∀ s s' : Stand, s'.active ≠ none → (fun _ _ : Stand => True) s s' :=
    fun _ _ _ => trivial
  obtain ⟨p, h₁⟩ := reachable_diskAfter hP (.init rfl) 0 (.ok fsrwTemplate)
  have h₂ : (stands.restrict fun _ _ => True).Reachable ⟨firstSet, 1, none⟩ :=
    h₁.step ⟨.stop rfl, trivial⟩
  obtain ⟨p', h₃⟩ := reachable_diskAfter hP h₂ (23 * hour)
    (.error (.text [.lit "no such file or directory"]))
  have h₄ : (stands.restrict fun _ _ => True).Reachable ⟨tornSet, 2, none⟩ :=
    h₃.step ⟨.stop rfl, trivial⟩
  refine ⟨_, h₄.of_restrict, rfl, rfl, leftInPlace_of_runIn rfl, ?_⟩
  rintro ⟨i, hi⟩
  obtain ⟨c, hc⟩ := hi .guestConfig
  obtain ⟨c', hc'⟩ := hi .caPEM
  cases hc
  cases hc'

end OcuFilestore.HarnessInit
