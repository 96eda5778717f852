import Mathlib.Logic.Function.Basic
import OcuFilestore.Go.Strings
import OcuFilestore.Harness.Jwtmint
import OcuFilestore.Lib.Interleaving

/-!
# OcuFilestore.Harness.Edge

The storage edge of the harness: the request handler
(`test/harness/cmd/edge`), the exchanger with its cache and its table of
exchanges in flight (`test/harness/edgeglue`), and the token exchange peer
(`test/harness/exchange`).

A request is a program over the state the requests share.  Its critical
sections are single effects; a waiter reads the result of a flight once it is
closed.  The peer verifies a subject token at a time of its own and issues
whatever credential its issuer comes up with; the way to it and back may fail
at any point.  The logs keep what was issued for which subject token, and
what was sent upstream on behalf of which inbound token.
-/

namespace OcuFilestore.Edge

open Jwtmint

/-- What the edge and the exchange peer verify tokens by. -/
structure Peers where
  ec : Ecdsa
  jwks : List JWK

def Peers.verify (p : Peers) (token : List Char) (now : Time) : Except VerifyErr Claims :=
  Jwtmint.verify p.ec token p.jwks cpIssuer cpAudience now

/-- The token has verified at some time, with these claims. -/
def Peers.Verified (p : Peers) (token : List Char) (c : Claims) : Prop :=
  ∃ now, p.verify token now = .ok c

/-- A token carries one set of claims, whenever it is verified. -/
theorem Peers.Verified.unique {p : Peers} {token : List Char} {c c' : Claims}
    (h : p.Verified token c) (h' : p.Verified token c') : c = c' := by
  obtain ⟨_, h⟩ := h
  obtain ⟨_, h'⟩ := h'
  exact Option.some.inj ((claims_of_verify h).symm.trans (claims_of_verify h'))

/-! ## the exchange peer -/

def grantTypeTokenExchange : List Char :=
  "urn:ietf:params:oauth:grant-type:token-exchange".toList

def subjectTokenTypeJWT : List Char := "urn:ietf:params:oauth:token-type:jwt".toList

structure ExchangeForm where
  grantType : List Char
  subjectToken : List Char
  subjectTokenType : List Char

structure OAuthError where
  status : Int
  code : String
  desc : String

/-- The peer's answer to a posted form.  `issue` is the credential issuer. -/
def handleExchange (p : Peers) (now : Time) (issue : List Char → List Char → List Char)
    (form : ExchangeForm) : Except OAuthError (List Char) :=
  if form.grantType ≠ grantTypeTokenExchange then
    .error ⟨400, "unsupported_grant_type", "expected the token-exchange grant"⟩
  else if form.subjectToken = [] then
    .error ⟨400, "invalid_request", "subject_token is required"⟩
  else
    match p.verify form.subjectToken now with
    | .error _ => .error ⟨400, "invalid_grant", "subject token is not valid"⟩
    | .ok claims =>
        if claims.filesystemID = [] then
          .error ⟨400, "invalid_grant", "subject token carries no filesystem_id"⟩
        else .ok (issue claims.filesystemID claims.intent)

/-- The exchange issues a credential for a verified token only. -/
theorem handleExchange_ok {p : Peers} {now : Time} {issue : List Char → List Char → List Char}
    {form : ExchangeForm} {cred : List Char} (h : handleExchange p now issue form = .ok cred) :
    ∃ c, p.Verified form.subjectToken c := by
  unfold handleExchange at h
  split at h
  · cases h
  · split at h
    · cases h
    · split at h
      · cases h
      · next c hc => exact ⟨c, now, hc⟩

/-! ## the exchanger -/

structure CacheEntry where
  cred : List Char
  /-- The zero time when no lifetime is known. -/
  notAfter : Time

/-- An exchange in progress, with the key it was registered under. -/
structure Flight where
  key : List Char
  result : Option (Except Err (List Char))
  closed : Bool

/-- The maps the mutex guards; flights are told apart by their numbers. -/
structure Exchanger where
  cache : List Char → Option CacheEntry
  inflight : List Char → Option Nat
  flights : List Flight

def nul : Char := Char.ofNat 0

/-- The key of the cache and of the table in flight. -/
def cacheKey (filesystemID intent : List Char) : List Char := filesystemID ++ nul :: intent

def isLive (renewSkew : Int) (now : Time) (entry : CacheEntry) : Bool :=
  entry.notAfter = zeroTime || now + renewSkew < entry.notAfter

/-- The end of an issued credential; one that is no token has none. -/
def credentialNotAfter (cred : List Char) : Time :=
  match expiryUnverified cred with
  | some exp => if exp = 0 then zeroTime else ofUnix exp
  | none => zeroTime

inductive Lookup where
  | hit (cred : List Char)
  | wait (f : Nat)
  | lead (f : Nat)
  deriving DecidableEq, Repr

namespace Exchanger

/-- A new flight. -/
def register (ex : Exchanger) (key : List Char) : Exchanger :=
  { ex with flights := ex.flights ++ [⟨key, none, false⟩],
            inflight := Function.update ex.inflight key (some ex.flights.length) }

/-- Wait for the exchange in flight, or register one. -/
def join (ex : Exchanger) (key : List Char) : Lookup × Exchanger :=
  match ex.inflight key with
  | some f => (.wait f, ex)
  | none => (.lead ex.flights.length, ex.register key)

/-- A stale entry is dropped. -/
def evict (ex : Exchanger) (key : List Char) : Exchanger :=
  { ex with cache := Function.update ex.cache key none }

/-- The first critical section of `Resolve`: only a live entry is a hit. -/
def lookup (ex : Exchanger) (renewSkew : Int) (now : Time) (key : List Char) :
    Lookup × Exchanger :=
  match ex.cache key with
  | some entry =>
      if isLive renewSkew now entry then (.hit entry.cred, ex) else (ex.evict key).join key
  | none => ex.join key

/-- The second critical section: the flight gets its result, and a success is
cached. -/
def settle (ex : Exchanger) (key : List Char) (f : Nat) (result : Except Err (List Char)) :
    Exchanger where
  cache :=
    match result with
    | .ok cred => Function.update ex.cache key (some ⟨cred, credentialNotAfter cred⟩)
    | .error _ => ex.cache
  inflight := Function.update ex.inflight key none
  flights := ex.flights.modify f fun fl => { fl with result := some result }

/-- The waiters are let go. -/
def close (ex : Exchanger) (f : Nat) : Exchanger :=
  { ex with flights := ex.flights.modify f fun fl => { fl with closed := true } }

end Exchanger

/-! ## effects -/

/-- How the round trip to the exchange peer ends: a body that could not be
read, one that does not decode, or the access token it carries. -/
inductive ExchangeReply where
  | notBuilt (e : Err)
  | failed (e : Err)
  | replied (status : Int) (body : Except Err (Except Err (List Char)))

/-- What is sent to the filestore. -/
structure UpstreamRequest where
  method : String
  path : List Char
  contentType : List Char
  contentLength : Int
  /-- The `Authorization` header is `Bearer` and this. -/
  cred : List Char
  deriving DecidableEq, Repr

inductive UpstreamReply where
  | notBuilt (e : Err)
  | failed (e : Err)
  | replied (status : Int)

inductive Eff where
  | now
  | lookup (key : List Char)
  | await (f : Nat)
  | exchange (form : ExchangeForm)
  | settle (key : List Char) (f : Nat) (result : Except Err (List Char))
  | close (f : Nat)
  /-- The inbound token and the clock it was verified by are not sent; they are
  kept for the log. -/
  | forward (weak : List Char) (now : Time) (req : UpstreamRequest)

def Eff.Reply : Eff → Type
  | now => Time
  | lookup _ => Lookup
  | await _ => Except Err (List Char)
  | exchange _ => ExchangeReply
  | settle _ _ _ => Unit
  | close _ => Unit
  | forward _ _ _ => UpstreamReply

abbrev EdgeProg (α : Type) : Type := Prog Eff.Reply α

/-! ## Resolve -/

/-- The result of the round trip. -/
def exchangeResult : ExchangeReply → Except Err (List Char)
  | .notBuilt e => .error (.wrap [.lit "edgeglue: build exchange request: "] e [])
  | .failed e => .error (.wrap [.lit "edgeglue: exchange round trip: "] e [])
  | .replied status body =>
      if status ≠ 200 then
        .error (.text [.lit "edgeglue: exchange returned status ", .int status])
      else
        match body with
        | .error e => .error (.wrap [.lit "edgeglue: read exchange body: "] e [])
        | .ok (.error e) => .error (.wrap [.lit "edgeglue: decode exchange body: "] e [])
        | .ok (.ok token) =>
            if token = [] then .error (.text [.lit "edgeglue: exchange returned no access_token"])
            else .ok token

/-- The scope a token claims, read without a signature check. -/
def filesystemIDClaim (token : List Char) : Except (List Frag) (List Char) :=
  match token.splitOn '.' with
  | [_, payload, _] =>
      match Base64.decodeRawURL payload with
      | none => .error [.lit "payload is not base64url"]
      | some payloadJSON =>
          match Harness.unmarshal
              [("filesystem_id".toList, true), ("intent".toList, false)]
              (fun (sc : List Char × List Char) v isFSID =>
                if isFSID then return (← Mountcfg.decodeString sc.1 v, sc.2)
                else return (sc.1, ← Mountcfg.decodeString sc.2 v))
              ([], []) payloadJSON with
          | .error _ => .error [.lit "payload is not JSON"]
          | .ok sc =>
              if sc.1 = [] then .error [.lit "subject token carries no filesystem_id"]
              else .ok sc.1
  | _ => .error [.lit "not a compact JWS"]

def exchange (weakJWT : List Char) : EdgeProg (Except Err (List Char)) := do
  let r ← .perform (Eff.exchange ⟨grantTypeTokenExchange, weakJWT, subjectTokenTypeJWT⟩)
  return exchangeResult r

def resolve (filesystemID intent weakJWT : List Char) : EdgeProg (Except Err (List Char)) := do
  if filesystemID = [] then return .error (.text [.lit "edgeglue: a filesystem_id is required"])
  match filesystemIDClaim weakJWT with
  | .error why =>
      return .error (.wrap [.lit "edgeglue: cannot read subject token scope: "] (.text why) [])
  | .ok claimedFSID =>
      if claimedFSID ≠ filesystemID then
        return .error (.text [.lit "edgeglue: subject token is scoped to ", .quoted claimedFSID,
          .lit ", not the requested ", .quoted filesystemID])
      let key := cacheKey filesystemID intent
      match ← .perform (Eff.lookup key) with
      | .hit cred => return .ok cred
      | .wait f => .perform (Eff.await f)
      | .lead f =>
          let r ← exchange weakJWT
          let _ ← .perform (Eff.settle key f r)
          let _ ← .perform (Eff.close f)
          return r

/-! ## the handler -/

/-- An inbound request, as far as the handler looks at it. -/
structure InboundRequest where
  authorization : List Char
  method : String
  path : List Char
  contentType : List Char
  contentLength : Int

inductive Response where
  | httpError (msg : Err) (status : Int)
  | forwarded (status : Int)

/-- `strings.TrimPrefix` of `Bearer`. -/
def trimBearer (cs : List Char) : List Char :=
  if "Bearer ".toList.isPrefixOf cs then cs.drop 7 else cs

def serveHTTP (p : Peers) (req : InboundRequest) : EdgeProg Response := do
  let weak := trimSpace (trimBearer req.authorization)
  if weak = [] ∨ weak = req.authorization then
    return .httpError (.text [.lit "missing bearer token"]) 401
  let now ← .perform Eff.now
  match p.verify weak now with
  | .error _ => return .httpError (.text [.lit "invalid token"]) 401
  | .ok claims =>
      if claims.filesystemID = [] then return .httpError (.text [.lit "token carries no scope"]) 401
      match ← resolve claims.filesystemID claims.intent weak with
      | .error e => return .httpError (.wrap [.lit "exchange failed: "] e []) 401
      | .ok cred =>
          -- a fresh request: the inbound token is not copied
          match ← .perform (Eff.forward weak now
              ⟨req.method, req.path, req.contentType, req.contentLength, cred⟩) with
          | .notBuilt _ => return .httpError (.text [.lit "build upstream request"]) 502
          | .failed _ => return .httpError (.text [.lit "upstream unreachable"]) 502
          | .replied status => return .forwarded status

/-! ## the shared state -/

/-- A credential with the subject token it was issued for. -/
structure Issued where
  cred : List Char
  subject : List Char
  deriving DecidableEq, Repr

/-- A request sent upstream, with the inbound token it was sent for and the
time the edge read when it verified it. -/
structure Injection where
  weak : List Char
  now : Time
  req : UpstreamRequest
  deriving DecidableEq, Repr

structure Shared where
  ex : Exchanger
  issued : List Issued
  upstream : List Injection

/-- The peer's answer on the wire. -/
def peerReply : Except OAuthError (List Char) → ExchangeReply
  | .ok cred => .replied 200 (.ok (.ok cred))
  | .error e => .replied e.status (.ok (.ok []))

/-- A credential that is issued is logged. -/
def Shared.log (s : Shared) (subject : List Char) : Except OAuthError (List Char) → Shared
  | .ok cred => { s with issued := ⟨cred, subject⟩ :: s.issued }
  | .error _ => s

/-- The edge and its peers.  A form may not reach the exchange peer, and its
answer may be lost or garbled on the way back; a waiter may be cancelled. -/
def network (p : Peers) (renewSkew : Int) : Env Eff.Reply Shared
  | s, .now, _, s' => s' = s
  | s, .lookup key, r, s' => ∃ now,
      r = (s.ex.lookup renewSkew now key).1 ∧
        s' = { s with ex := (s.ex.lookup renewSkew now key).2 }
  | s, .await f, r, s' => s' = s ∧
      ((∃ e, r = .error e) ∨
        ∃ fl, s.ex.flights[f]? = some fl ∧ fl.closed = true ∧ fl.result = some r)
  | s, .exchange form, r, s' =>
      s' = s ∧ (∃ e, exchangeResult r = .error e) ∨
        ∃ now issue, s' = s.log form.subjectToken (handleExchange p now issue form) ∧
          (r = peerReply (handleExchange p now issue form) ∨ ∃ e, exchangeResult r = .error e)
  | s, .settle key f result, _, s' => s' = { s with ex := s.ex.settle key f result }
  | s, .close f, _, s' => s' = { s with ex := s.ex.close f }
  | s, .forward weak now req, r, s' =>
      s' = { s with upstream := ⟨weak, now, req⟩ :: s.upstream } ∨ s' = s ∧ ∃ e, r = .notBuilt e

/-- The requests through one edge, in every interleaving. -/
def edge (p : Peers) (renewSkew : Int) : System (Shared × List (EdgeProg Response)) :=
  Discipline.interleave (network p renewSkew)
    (fun s => s = ⟨⟨fun _ => none, fun _ => none, []⟩, [], []⟩)
    (fun prog => ∃ req, prog = serveHTTP p req)

/-! ## the discipline -/

/-- The credential was issued for a verified token whose claims have this
key. -/
def Bound (p : Peers) (issued : List Issued) (key cred : List Char) : Prop :=
  ∃ tok c, ⟨cred, tok⟩ ∈ issued ∧ p.Verified tok c ∧ cacheKey c.filesystemID c.intent = key

/-- A credential stays bound as more of them are issued. -/
theorem Bound.mono {p : Peers} {issued issued' : List Issued} {key cred : List Char}
    (h : Bound p issued key cred) (hs : issued ⊆ issued') : Bound p issued' key cred := by
  obtain ⟨tok, c, hmem, hc⟩ := h
  exact ⟨tok, c, hs hmem, hc⟩

namespace Exchanger

/-- The flight was registered under this key. -/
def HasFlight (ex : Exchanger) (f : Nat) (key : List Char) : Prop :=
  ∃ fl, ex.flights[f]? = some fl ∧ fl.key = key

/-- What the exchanger hands out is bound to the key it is found under. -/
structure Inv (p : Peers) (issued : List Issued) (ex : Exchanger) : Prop where
  cache : ∀ key entry, ex.cache key = some entry → Bound p issued key entry.cred
  inflight : ∀ key f, ex.inflight key = some f → ex.HasFlight f key
  flights : ∀ fl ∈ ex.flights, ∀ cred, fl.result = some (.ok cred) → Bound p issued fl.key cred

section Ops

variable {p : Peers} {issued issued' : List Issued} {ex : Exchanger}

/-- The exchanger's invariant survives the issue of more credentials. -/
theorem Inv.mono (inv : ex.Inv p issued) (h : issued ⊆ issued') : ex.Inv p issued' :=
  ⟨fun key entry he => (inv.cache key entry he).mono h, inv.inflight,
    fun fl hfl cred hc => (inv.flights fl hfl cred hc).mono h⟩

/-- A flight stays with its key when another is registered. -/
theorem HasFlight.register {f : Nat} {key : List Char} (h : ex.HasFlight f key)
    (key' : List Char) : (ex.register key').HasFlight f key := by
  obtain ⟨fl, hfl, hkey⟩ := h
  have hlt : f < ex.flights.length := (List.getElem?_eq_some_iff.mp hfl).1
  exact ⟨fl, (List.getElem?_append_left hlt).trans hfl, hkey⟩

/-- The new flight has the key it was registered for. -/
theorem hasFlight_register (ex : Exchanger) (key : List Char) :
    (ex.register key).HasFlight ex.flights.length key :=
  ⟨⟨key, none, false⟩, List.getElem?_concat_length, rfl⟩

/-- Registering a flight keeps the invariant. -/
theorem Inv.register (inv : ex.Inv p issued) (key : List Char) :
    (ex.register key).Inv p issued := by
  refine ⟨inv.cache, fun key' f hf => ?_, fun fl hfl => ?_⟩
  · simp only [Exchanger.register, Function.update_apply] at hf
    split at hf
    · next hkey =>
        cases hf
        rw [hkey]
        exact hasFlight_register ex key
    · exact (inv.inflight key' f hf).register key
  · rcases List.mem_append.mp hfl with hfl | hfl
    · exact inv.flights fl hfl
    · rw [List.mem_singleton.mp hfl]
      exact nofun

/-- Evicting an entry keeps the invariant. -/
theorem Inv.evict (inv : ex.Inv p issued) (key : List Char) : (ex.evict key).Inv p issued := by
  refine ⟨fun key' entry he => ?_, inv.inflight, inv.flights⟩
  simp only [Exchanger.evict, Function.update_apply] at he
  split at he
  · cases he
  · exact inv.cache key' entry he

/-- Flights keep their keys when one of them changes. -/
theorem hasFlight_modify {f g : Nat} {key : List Char} {ex' : Exchanger} {h : Flight → Flight}
    (hex : ex'.flights = ex.flights.modify g h) (hkey : ∀ fl, (h fl).key = fl.key)
    (hf : ex.HasFlight f key) : ex'.HasFlight f key := by
  obtain ⟨fl, hfl, hk⟩ := hf
  unfold HasFlight
  rw [hex, List.getElem?_modify, hfl]
  by_cases hfg : g = f
  · exact ⟨h fl, by simp [hfg], (hkey fl).trans hk⟩
  · exact ⟨fl, by simp [hfg], hk⟩

/-- The results of the flights when one of them changes. -/
theorem flights_modify {g : Nat} {h : Flight → Flight} {P : Flight → Prop}
    (hP : ∀ fl ∈ ex.flights, P fl) (hnew : ∀ fl, ex.flights[g]? = some fl → P (h fl)) :
    ∀ fl ∈ ex.flights.modify g h, P fl := by
  intro fl hfl
  obtain ⟨i, hi⟩ := List.getElem?_of_mem hfl
  rw [List.getElem?_modify] at hi
  cases hex : ex.flights[i]? with
  | none => simp [hex] at hi
  | some fl' =>
      rw [hex] at hi
      by_cases hig : g = i
      · subst hig
        have heq : h fl' = fl := by simpa using hi
        exact heq ▸ hnew fl' hex
      · have heq : fl' = fl := by simpa [hig] using hi
        exact heq ▸ hP fl' (List.mem_of_getElem? hex)

/-- Settling a flight with a bound credential keeps the invariant. -/
theorem Inv.settle (inv : ex.Inv p issued) {key : List Char} {f : Nat}
    {result : Except Err (List Char)} (hf : ex.HasFlight f key)
    (hr : ∀ cred, result = .ok cred → Bound p issued key cred) :
    (ex.settle key f result).Inv p issued := by
  refine ⟨fun key' entry he => ?_, fun key' g hg => ?_, flights_modify inv.flights fun fl hfl => ?_⟩
  · cases result with
    | error e => exact inv.cache key' entry he
    | ok cred =>
        simp only [Exchanger.settle, Function.update_apply] at he
        split at he
        · next hkey =>
            cases he
            rw [hkey]
            exact hr cred rfl
        · exact inv.cache key' entry he
  · simp only [Exchanger.settle, Function.update_apply] at hg
    split at hg
    · cases hg
    · exact hasFlight_modify rfl (fun _ => rfl) (inv.inflight key' g hg)
  · rintro cred ⟨⟩
    obtain ⟨fl', hfl', hkey⟩ := hf
    cases hfl.symm.trans hfl'
    exact hkey ▸ hr cred rfl

/-- Closing a flight keeps the invariant. -/
theorem Inv.close (inv : ex.Inv p issued) (f : Nat) : (ex.close f).Inv p issued :=
  ⟨inv.cache, fun key g hg => hasFlight_modify rfl (fun _ => rfl) (inv.inflight key g hg),
    flights_modify inv.flights fun fl hfl => inv.flights fl (List.mem_of_getElem? hfl)⟩

/-- What a lookup may find. -/
def Found (p : Peers) (issued : List Issued) (ex : Exchanger) (key : List Char) : Lookup → Prop
  | .hit cred => Bound p issued key cred
  | .wait f => ex.HasFlight f key
  | .lead f => ex.HasFlight f key

/-- Joining keeps the flights there are. -/
theorem Inv.join (inv : ex.Inv p issued) (key : List Char) :
    (ex.join key).2.Inv p issued ∧
      (∀ f key', ex.HasFlight f key' → (ex.join key).2.HasFlight f key') ∧
      Found p issued (ex.join key).2 key (ex.join key).1 := by
  unfold Exchanger.join
  cases hin : ex.inflight key with
  | some f => exact ⟨inv, fun _ _ h => h, inv.inflight key f hin⟩
  | none => exact ⟨inv.register key, fun _ _ h => h.register key, hasFlight_register ex key⟩

/-- A lookup finds a bound credential or a flight of its key. -/
theorem Inv.lookup (inv : ex.Inv p issued) (renewSkew : Int) (now : Time) (key : List Char) :
    (ex.lookup renewSkew now key).2.Inv p issued ∧
      (∀ f key', ex.HasFlight f key' → (ex.lookup renewSkew now key).2.HasFlight f key') ∧
      Found p issued (ex.lookup renewSkew now key).2 key (ex.lookup renewSkew now key).1 := by
  unfold Exchanger.lookup
  cases hcache : ex.cache key with
  | none => exact inv.join key
  | some entry =>
      dsimp only
      split
      · exact ⟨inv, fun _ _ h => h, inv.cache key entry hcache⟩
      · exact (inv.evict key).join key

end Ops

end Exchanger

/-- Every request upstream is for a verified token and carries a credential
bound to the token's key. -/
structure Inv (p : Peers) (s : Shared) : Prop where
  ex : s.ex.Inv p s.issued
  upstream : ∀ inj ∈ s.upstream, ∃ c, p.verify inj.weak inj.now = .ok c ∧
    Bound p s.issued (cacheKey c.filesystemID c.intent) inj.req.cred

/-- Nothing that was issued is forgotten, and flights keep their keys. -/
structure Extends (s s' : Shared) : Prop where
  issued : s.issued ⊆ s'.issued
  flights : ∀ f key, s.ex.HasFlight f key → s'.ex.HasFlight f key

theorem Extends.refl (s : Shared) : Extends s s := ⟨List.Subset.refl _, fun _ _ h => h⟩

/-- Logging an exchange keeps the invariant and forgets nothing. -/
theorem Inv.log {p : Peers} {s : Shared} (inv : Inv p s) (subject : List Char)
    (res : Except OAuthError (List Char)) : Inv p (s.log subject res) ∧
      Extends s (s.log subject res) := by
  cases res with
  | error e => exact ⟨inv, .refl s⟩
  | ok cred =>
      have hsub := List.subset_cons_self (⟨cred, subject⟩ : Issued) s.issued
      refine ⟨⟨inv.ex.mono hsub, fun inj hinj => ?_⟩, hsub, fun _ _ h => h⟩
      obtain ⟨c, hc, hb⟩ := inv.upstream inj hinj
      exact ⟨c, hc, hb.mono hsub⟩

def discipline (p : Peers) (renewSkew : Int) : Discipline Eff.Reply Shared where
  env := network p renewSkew
  inv := Inv p
  rely := Extends
  refl := Extends.refl
  trans _ _ _ h h' :=
    ⟨List.Subset.trans h.issued h'.issued, fun f key hf => h'.flights f key (h.flights f key hf)⟩

section Effects

variable {p : Peers} {renewSkew : Int} {s : Shared} {key weak : List Char} {f : Nat} {c : Claims}

/-- A lookup finds a bound credential, or a flight of the same key. -/
theorem guarded_lookup (key : List Char) :
    (discipline p renewSkew).Guarded (fun s r => Exchanger.Found p s.issued s.ex key r) s
      (.perform (Eff.lookup key)) := by
  refine Discipline.guarded_perform ?_ fun s r s' h hext => ?_
  · rintro s' - inv r s'' ⟨now, rfl, rfl⟩
    obtain ⟨hinv, hflights, hfound⟩ := inv.ex.lookup renewSkew now key
    exact ⟨⟨hinv, inv.upstream⟩, ⟨List.Subset.refl _, hflights⟩, hfound⟩
  · change Lookup at r
    cases r with
    | hit cred => exact Bound.mono h hext.issued
    | wait f => exact hext.flights f key h
    | lead f => exact hext.flights f key h

/-- The result is a credential bound to the key, if it is one. -/
def Yields (p : Peers) (key : List Char) (s : Shared) (r : Except Err (List Char)) : Prop :=
  ∀ cred, r = .ok cred → Bound p s.issued key cred

/-- What was yielded stays good. -/
theorem Yields.mono {s' : Shared} {r : Except Err (List Char)} (h : Yields p key s r)
    (hext : Extends s s') : Yields p key s' r :=
  fun cred hr => (h cred hr).mono hext.issued

theorem yields_error (p : Peers) (key : List Char) (s : Shared) (e : Err) :
    Yields p key s (.error e) := nofun

/-- A waiter gets what the flight of its key ended with. -/
theorem guarded_await (hf : s.ex.HasFlight f key) :
    (discipline p renewSkew).Guarded (Yields p key) s (.perform (Eff.await f)) := by
  refine Discipline.guarded_perform ?_ fun s r s' h hext => h.mono hext
  rintro s' hext inv r _ ⟨rfl, hr⟩
  refine ⟨inv, .refl _, ?_⟩
  rcases hr with ⟨e, rfl⟩ | ⟨fl, hfl, -, hres⟩
  · exact yields_error p key _ e
  · intro cred hcred
    obtain ⟨fl', hfl', hkey⟩ := hext.flights f key hf
    cases hfl.symm.trans hfl'
    exact hkey ▸ inv.ex.flights fl (List.mem_of_getElem? hfl) cred (hcred ▸ hres)

/-- What comes back over the wire is what was issued for the token. -/
theorem yields_peerReply (hweak : p.Verified weak c) (now : Time)
    (issue : List Char → List Char → List Char) {form : ExchangeForm}
    (hform : form.subjectToken = weak) :
    Yields p (cacheKey c.filesystemID c.intent)
      (s.log weak (handleExchange p now issue form))
      (exchangeResult (peerReply (handleExchange p now issue form))) := by
  intro cred hcred
  cases hres : handleExchange p now issue form with
  | error e =>
      rw [hres] at hcred
      simp only [peerReply, exchangeResult] at hcred
      grind
  | ok cred' =>
      have heq : cred' = cred := by
        rw [hres] at hcred
        simp only [peerReply, exchangeResult] at hcred
        grind
      obtain ⟨c', hc'⟩ := handleExchange_ok hres
      rw [hform] at hc'
      cases hc'.unique hweak
      exact ⟨weak, c, heq ▸ List.mem_cons_self, hweak, rfl⟩

/-- An exchange yields a credential for the scope of its token. -/
theorem guarded_exchange (hweak : p.Verified weak c) :
    (discipline p renewSkew).Guarded (Yields p (cacheKey c.filesystemID c.intent)) s
      (exchange weak) := by
  have hperform : (discipline p renewSkew).Guarded
      (fun s r => Yields p (cacheKey c.filesystemID c.intent) s (exchangeResult r)) s
      (.perform (Eff.exchange ⟨grantTypeTokenExchange, weak, subjectTokenTypeJWT⟩)) := by
    refine Discipline.guarded_perform ?_ fun s r s' h hext => h.mono hext
    rintro s' - inv r s'' (⟨rfl, e, he⟩ | ⟨now, issue, rfl, hr⟩)
    · exact ⟨inv, .refl _, he ▸ yields_error p _ _ e⟩
    · obtain ⟨hinv, hext⟩ := inv.log weak
        (handleExchange p now issue ⟨grantTypeTokenExchange, weak, subjectTokenTypeJWT⟩)
      refine ⟨hinv, hext, ?_⟩
      rcases hr with rfl | ⟨e, he⟩
      · exact yields_peerReply hweak now issue rfl
      · exact he ▸ yields_error p _ _ e
  exact hperform.bind fun s r _ hr s' hext _ => hr.mono hext

/-- The leader settles its flight with what it yields. -/
theorem guarded_settle {r : Except Err (List Char)} (hf : s.ex.HasFlight f key)
    (hr : Yields p key s r) :
    (discipline p renewSkew).Guarded (fun s _ => Yields p key s r) s
      (.perform (Eff.settle key f r)) := by
  refine Discipline.guarded_perform ?_ fun s _ s' h hext => h.mono hext
  rintro s' hext inv _ s'' rfl
  have hr' := hr.mono hext
  exact ⟨⟨inv.ex.settle (hext.flights f key hf) hr', inv.upstream⟩,
    ⟨List.Subset.refl _, fun _ _ => Exchanger.hasFlight_modify rfl fun _ => rfl⟩, hr'⟩

/-- And then closes it. -/
theorem guarded_close {r : Except Err (List Char)} (hr : Yields p key s r) :
    (discipline p renewSkew).Guarded (fun s _ => Yields p key s r) s
      (.perform (Eff.close f)) := by
  refine Discipline.guarded_perform ?_ fun s _ s' h hext => h.mono hext
  rintro s' hext inv _ s'' rfl
  have hr' := hr.mono hext
  exact ⟨⟨inv.ex.close f, inv.upstream⟩,
    ⟨List.Subset.refl _, fun _ _ => Exchanger.hasFlight_modify rfl fun _ => rfl⟩, hr'⟩

/-- The flight that leads exchanges the token, and hands on what it got. -/
theorem guarded_lead (hweak : p.Verified weak c)
    (hf : s.ex.HasFlight f (cacheKey c.filesystemID c.intent)) :
    (discipline p renewSkew).Guarded (Yields p (cacheKey c.filesystemID c.intent)) s
      (do
        let r ← exchange weak
        let _ ← .perform (Eff.settle (cacheKey c.filesystemID c.intent) f r)
        let _ ← .perform (Eff.close f)
        return r) := by
  refine ((guarded_exchange hweak).frame hf fun s s' h hext => hext.flights _ _ h).bind
    fun s r _ ⟨hr, hf⟩ => ?_
  refine (guarded_settle hf hr).bind fun s _ _ hr => ?_
  exact (guarded_close hr).bind fun s _ _ hr s' hext _ => hr.mono hext

/-- Resolving a scope yields a credential of that scope. -/
theorem guarded_resolve (hweak : p.Verified weak c) :
    (discipline p renewSkew).Guarded (Yields p (cacheKey c.filesystemID c.intent)) s
      (resolve c.filesystemID c.intent weak) := by
  have herr (e : Err) : (discipline p renewSkew).Guarded
      (Yields p (cacheKey c.filesystemID c.intent)) s (.ret (.error e)) :=
    fun s' _ _ => yields_error p _ s' e
  unfold resolve
  split
  · exact herr _
  · split
    · exact herr _
    · split
      · exact herr _
      · refine (guarded_lookup _).bind fun s r _ hr => ?_
        change Lookup at r
        cases r with
        | hit cred =>
            rintro s' hext _ _ ⟨⟩
            exact Bound.mono hr hext.issued
        | wait f => exact guarded_await hr
        | lead f => exact guarded_lead hweak hr

/-- A request is forwarded under a credential of its own scope only. -/
theorem guarded_forward {now : Time} {req : UpstreamRequest} (hweak : p.verify weak now = .ok c)
    (hcred : Bound p s.issued (cacheKey c.filesystemID c.intent) req.cred) :
    (discipline p renewSkew).Guarded (fun _ _ => True) s
      (.perform (Eff.forward weak now req)) := by
  refine Discipline.guarded_perform ?_ fun _ _ _ _ _ => trivial
  rintro s' hext inv r s'' (rfl | ⟨rfl, -⟩)
  · refine ⟨⟨inv.ex, fun inj hinj => ?_⟩, ⟨List.Subset.refl _, fun _ _ h => h⟩, trivial⟩
    rcases List.mem_cons.mp hinj with rfl | hinj
    · exact ⟨c, hweak, hcred.mono hext.issued⟩
    · exact inv.upstream inj hinj
  · exact ⟨inv, .refl _, trivial⟩

theorem guarded_now :
    (discipline p renewSkew).Guarded (fun _ _ => True) s (.perform Eff.now) := by
  refine Discipline.guarded_perform ?_ fun _ _ _ _ _ => trivial
  rintro s' - inv r _ rfl
  exact ⟨inv, .refl _, trivial⟩

/-- A request keeps to the discipline. -/
theorem guarded_serveHTTP (p : Peers) (renewSkew : Int) (s : Shared) (req : InboundRequest) :
    (discipline p renewSkew).Guarded (fun _ _ => True) s (serveHTTP p req) := by
  have hret (s : Shared) (resp : Response) : (discipline p renewSkew).Guarded
      (fun _ _ => True) s (.ret resp) := fun _ _ _ => trivial
  unfold serveHTTP
  dsimp only
  split
  · exact hret _ _
  · refine guarded_now.bind fun s now _ _ => ?_
    split
    · exact hret _ _
    · next c hc =>
        split
        · exact hret _ _
        · refine (guarded_resolve ⟨now, hc⟩).bind fun s r _ hr => ?_
          cases r with
          | error e => exact hret _ _
          | ok cred =>
              refine (guarded_forward hc (hr cred rfl)).bind fun s r _ _ => ?_
              change UpstreamReply at r
              cases r with
              | notBuilt e => exact hret _ _
              | failed e => exact hret _ _
              | replied status => exact hret _ _

end Effects

/-! ## requests that are served -/

/-- A token that the edge accepts. -/
structure Accepted (p : Peers) (now : Time) (tok : List Char) (c : Claims) : Prop where
  verify : p.verify tok now = .ok c
  filesystemID : c.filesystemID ≠ []
  claimed : filesystemIDClaim tok = .ok c.filesystemID

section Served

variable {p : Peers} {renewSkew : Int} {s s₁ : Shared} {now : Time} {tok cred : List Char}
  {c : Claims}

/-- An accepted token is exchanged. -/
theorem evalsTo_exchange (hacc : Accepted p now tok c) (htok : tok ≠ []) (hcred : cred ≠ []) :
    Prog.EvalsTo (network p renewSkew) s (exchange tok)
      { s with issued := ⟨cred, tok⟩ :: s.issued } (.ok cred) := by
  have hpeer : handleExchange p now (fun _ _ => cred)
      ⟨grantTypeTokenExchange, tok, subjectTokenTypeJWT⟩ = .ok cred := by
    simp [handleExchange, htok, hacc.verify, hacc.filesystemID]
  have hres : exchangeResult (peerReply (.ok cred)) = .ok cred := by
    simp [peerReply, exchangeResult, hcred]
  refine Prog.EvalsTo.bind (Prog.evalsTo_perform (r := peerReply (.ok cred))
    (.inr ⟨now, fun _ _ => cred, rfl, .inl (by rw [hpeer])⟩)) ?_
  rw [hpeer, hres]
  exact .refl _ _

/-- The first request of a scope exchanges its token. -/
theorem evalsTo_resolve_lead (hacc : Accepted p now tok c) (htok : tok ≠ []) (hcred : cred ≠ [])
    (hcache : s.ex.cache (cacheKey c.filesystemID c.intent) = none)
    (hin : s.ex.inflight (cacheKey c.filesystemID c.intent) = none) :
    Prog.EvalsTo (network p renewSkew) s (resolve c.filesystemID c.intent tok)
      ⟨((s.ex.register (cacheKey c.filesystemID c.intent)).settle
          (cacheKey c.filesystemID c.intent) s.ex.flights.length (.ok cred)).close
            s.ex.flights.length,
        ⟨cred, tok⟩ :: s.issued, s.upstream⟩ (.ok cred) := by
  have hlookup : s.ex.lookup renewSkew now (cacheKey c.filesystemID c.intent) =
      (.lead s.ex.flights.length, s.ex.register (cacheKey c.filesystemID c.intent)) := by
    simp only [Exchanger.lookup, Exchanger.join, hcache, hin]
  unfold resolve
  rw [if_neg hacc.filesystemID, hacc.claimed]
  simp only [ne_eq, not_true_eq_false, if_false]
  refine Prog.EvalsTo.bind (Prog.evalsTo_perform (r := .lead s.ex.flights.length)
    ⟨now, by rw [hlookup], rfl⟩) ?_
  rw [hlookup]
  refine Prog.EvalsTo.bind (evalsTo_exchange hacc htok hcred) ?_
  refine Prog.EvalsTo.bind (Prog.evalsTo_perform (r := ()) rfl) ?_
  exact Prog.EvalsTo.bind (Prog.evalsTo_perform (r := ()) rfl) (.refl _ _)

/-- A later one takes what is cached, while it is live. -/
theorem evalsTo_resolve_hit {entry : CacheEntry} (hacc : Accepted p now tok c)
    (hcache : s.ex.cache (cacheKey c.filesystemID c.intent) = some entry)
    (hlive : isLive renewSkew now entry = true) :
    Prog.EvalsTo (network p renewSkew) s (resolve c.filesystemID c.intent tok) s
      (.ok entry.cred) := by
  have hlookup : s.ex.lookup renewSkew now (cacheKey c.filesystemID c.intent) =
      (.hit entry.cred, s.ex) := by
    simp only [Exchanger.lookup, hcache, hlive, if_true]
  unfold resolve
  rw [if_neg hacc.filesystemID, hacc.claimed]
  simp only [ne_eq, not_true_eq_false, if_false]
  refine Prog.EvalsTo.bind (Prog.evalsTo_perform (r := .hit entry.cred)
    ⟨now, by rw [hlookup], by rw [hlookup]⟩) (.refl _ _)

/-- A request whose token resolves is sent upstream with what it resolves
to. -/
theorem evalsTo_serveHTTP {req : InboundRequest} (hacc : Accepted p now tok c) (htok : tok ≠ [])
    (hreq : trimSpace (trimBearer req.authorization) = tok) (hbearer : tok ≠ req.authorization)
    (hres : Prog.EvalsTo (network p renewSkew) s (resolve c.filesystemID c.intent tok) s₁
      (.ok cred)) :
    Prog.EvalsTo (network p renewSkew) s (serveHTTP p req)
      { s₁ with upstream :=
          ⟨tok, now, req.method, req.path, req.contentType, req.contentLength, cred⟩ ::
            s₁.upstream }
      (.forwarded 200) := by
  subst hreq
  unfold serveHTTP
  simp only [htok, hbearer, or_self, if_false]
  refine Prog.EvalsTo.bind (Prog.evalsTo_perform (r := now) rfl) ?_
  rw [hacc.verify]
  simp only [hacc.filesystemID, if_false]
  refine Prog.EvalsTo.bind hres ?_
  exact Prog.EvalsTo.bind (Prog.evalsTo_perform (r := .replied 200) (.inl rfl)) (.refl _ _)

end Served

/-! ## two scopes with one key -/

/-- `{"alg":"ES256","typ":"JWT","kid":"kid-cp"}` -/
def mintHeader : List Char :=
  "eyJhbGciOiJFUzI1NiIsInR5cCI6IkpX".toList ++ "VCIsImtpZCI6ImtpZC1jcCJ9".toList

/-- The scope `a` with the intent `b\u0000c`. -/
def payloadShort : List Char :=
  "eyJpc3MiOiJodHRwczovL2NvbnRyb2wt".toList ++ "cGxhbmUudGVzdCIsImF1ZCI6ImZpbGVz".toList ++
    "dG9yZS1lZGdlIiwiZXhwIjozNjAwLCJm".toList ++ "aWxlc3lzdGVtX2lkIjoiYSIsImludGVu".toList ++
    "dCI6ImJcdTAwMDBjIn0".toList

/-- The scope `a\u0000b` with the intent `c`. -/
def payloadLong : List Char :=
  "eyJpc3MiOiJodHRwczovL2NvbnRyb2wt".toList ++ "cGxhbmUudGVzdCIsImF1ZCI6ImZpbGVz".toList ++
    "dG9yZS1lZGdlIiwiZXhwIjozNjAwLCJm".toList ++ "aWxlc3lzdGVtX2lkIjoiYVx1MDAwMGIi".toList ++
    "LCJpbnRlbnQiOiJjIn0".toList

/-- The payloads the control plane has signed, each with its signature. -/
def minted : List (List Char × List Char) :=
  [(payloadShort, List.replicate 86 'A'), (payloadLong, List.replicate 86 'E')]

/-- Nothing verifies but what was signed. -/
def mintedPeers : Peers where
  ec :=
    { onCurve := fun _ => true
      verify := fun _ digest rs => minted.any fun m =>
        digest = sum256 (String.ofList (mintHeader ++ '.' :: m.1)).toUTF8.toList &&
          Base64.decodeRawURL m.2 = some rs }
  jwks := [⟨"EC".toList, "P-256".toList, "kid-cp".toList, [], []⟩]

def token (payload sig : List Char) : List Char := mintHeader ++ '.' :: (payload ++ '.' :: sig)

def claimsOf (filesystemID intent : List Char) : Claims :=
  ⟨cpIssuer, cpAudience, [], 0, 3600, filesystemID, intent, [], false⟩

def request (tok : List Char) : InboundRequest :=
  ⟨"Bearer ".toList ++ tok, "POST", "/v1/stat".toList, "application/json".toList, 0⟩

/-- The header decodes and names the published key. -/
theorem checkSignature_minted {payload sig : List Char} {rs : List UInt8}
    (hmem : (payload, sig) ∈ minted) (hsig : Base64.decodeRawURL sig = some rs)
    (hlen : rs.length = 64) :
    checkSignature mintedPeers.ec mintedPeers.jwks mintHeader payload sig = .ok () := by
  have hheader : (Base64.decodeRawURL mintHeader).bind (fun raw =>
      (Harness.unmarshal headerFields JoseHeader.set ⟨[], [], []⟩ raw).toOption) =
        some ⟨"ES256".toList, "JWT".toList, "kid-cp".toList⟩ := by
    decide +kernel
  obtain ⟨raw, hraw, hjson⟩ := Option.bind_eq_some_iff.mp hheader
  exact checkSignature_ok hraw (ok_of_toOption hjson) rfl rfl rfl hsig hlen
    (List.any_eq_true.mpr ⟨_, hmem, by simp [hsig]⟩)

/-- What a minted token reads as. -/
abbrev Reads (payload sig : List Char) (c : Claims) : Prop :=
  '.' ∉ payload ∧ '.' ∉ sig ∧ (payloadClaims payload).toOption = some c ∧
    (filesystemIDClaim (token payload sig)).toOption = some c.filesystemID ∧
    ((Base64.decodeRawURL sig).map List.length) = some 64 ∧
    trimSpace (trimBearer (request (token payload sig)).authorization) = token payload sig

theorem reads_short :
    Reads payloadShort (List.replicate 86 'A') (claimsOf ['a'] ['b', nul, 'c']) := by
  decide +kernel

theorem reads_long :
    Reads payloadLong (List.replicate 86 'E') (claimsOf ['a', nul, 'b'] ['c']) := by
  decide +kernel

theorem token_ne_nil (payload sig : List Char) : token payload sig ≠ [] := by
  simp [token]

/-- Until it expires a minted token is accepted. -/
theorem accepted_of_reads {payload sig filesystemID intent : List Char}
    (hmem : (payload, sig) ∈ minted) (hreads : Reads payload sig (claimsOf filesystemID intent))
    (hfs : filesystemID ≠ []) :
    Accepted mintedPeers (ofUnix 0) (token payload sig) (claimsOf filesystemID intent) := by
  obtain ⟨hdotp, hdots, hc, hclaim, hrs, -⟩ := hreads
  obtain ⟨rs, hsig, hlen⟩ := Option.map_eq_some_iff.mp hrs
  refine ⟨?_, hfs, ok_of_toOption hclaim⟩
  have hheader : '.' ∉ mintHeader := by decide +kernel
  have hclaims : checkClaims cpIssuer cpAudience (ofUnix 0) (claimsOf filesystemID intent) =
      .ok () := by
    rw [checkClaims, if_neg (fun h => h.2 rfl), if_neg (fun h => h.2 rfl)]
    rfl
  exact verify_ok (splitToken_join hheader hdotp hdots) (checkSignature_minted hmem hsig hlen)
    (ok_of_toOption hc) hclaims

/-- An opaque credential. -/
def opaqueCred : List Char := List.replicate 32 'x'

/-- Of a token that reads as it should, a request gets through. -/
theorem evalsTo_request {payload sig filesystemID intent cred : List Char} {renewSkew : Int}
    {s s₁ : Shared} (hmem : (payload, sig) ∈ minted)
    (hreads : Reads payload sig (claimsOf filesystemID intent)) (hfs : filesystemID ≠ [])
    (hres : Prog.EvalsTo (network mintedPeers renewSkew) s
      (resolve filesystemID intent (token payload sig)) s₁ (.ok cred)) :
    Prog.EvalsTo (network mintedPeers renewSkew) s
      (serveHTTP mintedPeers (request (token payload sig)))
      { s₁ with upstream := ⟨token payload sig, ofUnix 0, "POST", "/v1/stat".toList,
          "application/json".toList, 0, cred⟩ :: s₁.upstream } (.forwarded 200) := by
  have hbearer (tok : List Char) : tok ≠ "Bearer ".toList ++ tok :=
    fun h => absurd (List.self_eq_append_left.mp h) (by decide)
  exact evalsTo_serveHTTP (accepted_of_reads hmem hreads hfs) (token_ne_nil _ _)
    hreads.2.2.2.2.2 (hbearer _) hres

def tokenShort : List Char := token payloadShort (List.replicate 86 'A')
def tokenLong : List Char := token payloadLong (List.replicate 86 'E')

def sent (tok : List Char) : Injection :=
  ⟨tok, ofUnix 0, "POST", "/v1/stat".toList, "application/json".toList, 0, opaqueCred⟩

/-- The key of both scopes. -/
def bothKey : List Char := ['a', nul, 'b', nul, 'c']

theorem accepted_short :
    Accepted mintedPeers (ofUnix 0) tokenShort (claimsOf ['a'] ['b', nul, 'c']) :=
  accepted_of_reads List.mem_cons_self reads_short (by simp)

theorem accepted_long :
    Accepted mintedPeers (ofUnix 0) tokenLong (claimsOf ['a', nul, 'b'] ['c']) :=
  accepted_of_reads (List.mem_cons_of_mem _ List.mem_cons_self) reads_long (by simp)

/-- The exchanger after the first exchange. -/
def exchangedShort : Exchanger :=
  ((Exchanger.register ⟨fun _ => none, fun _ => none, []⟩ bothKey).settle bothKey 0
    (.ok opaqueCred)).close 0

/-- The edge after the first request. -/
def servedShort : Shared :=
  ⟨exchangedShort, [⟨opaqueCred, tokenShort⟩], [sent tokenShort]⟩

theorem reachable_short (renewSkew : Int) :
    (edge mintedPeers renewSkew).Reachable (servedShort, [.ret (.forwarded 200)]) := by
  have hmem : (payloadShort, List.replicate 86 'A') ∈ minted := List.mem_cons_self
  have hres : Prog.EvalsTo (network mintedPeers renewSkew)
      ⟨⟨fun _ => none, fun _ => none, []⟩, [], []⟩ (resolve ['a'] ['b', nul, 'c'] tokenShort)
      ⟨exchangedShort, [⟨opaqueCred, tokenShort⟩], []⟩ (.ok opaqueCred) :=
    evalsTo_resolve_lead (c := claimsOf ['a'] ['b', nul, 'c']) accepted_short (token_ne_nil _ _)
      (by decide) rfl rfl
  have hinit : (edge mintedPeers renewSkew).Reachable
      (⟨⟨fun _ => none, fun _ => none, []⟩, [], []⟩, []) := .init ⟨rfl, rfl⟩
  exact Discipline.reachable_evalsTo hinit ⟨_, rfl⟩
    (evalsTo_request hmem reads_short (by simp) hres)

theorem reachable_both (renewSkew : Int) :
    (edge mintedPeers renewSkew).Reachable
      ({ servedShort with upstream := [sent tokenLong, sent tokenShort] },
        [.ret (.forwarded 200), .ret (.forwarded 200)]) := by
  have hmem : (payloadLong, List.replicate 86 'E') ∈ minted :=
    List.mem_cons_of_mem _ List.mem_cons_self
  have hcached : servedShort.ex.cache bothKey = some ⟨opaqueCred, zeroTime⟩ := rfl
  have hres : Prog.EvalsTo (network mintedPeers renewSkew) servedShort
      (resolve ['a', nul, 'b'] ['c'] tokenLong) servedShort (.ok opaqueCred) :=
    evalsTo_resolve_hit (c := claimsOf ['a', nul, 'b'] ['c']) accepted_long hcached rfl
  exact Discipline.reachable_evalsTo (reachable_short renewSkew) ⟨_, rfl⟩
    (evalsTo_request hmem reads_long (by simp) hres)

/-! ## credential binding -/

/-- Two scopes have one key only if the separator is in the `filesystem_id` of
the one and in the intent of the other. -/
theorem cacheKey_inj {f i f' i' : List Char} (hfi : ¬ (nul ∈ f ∧ nul ∈ i'))
    (hif : ¬ (nul ∈ i ∧ nul ∈ f')) (h : cacheKey f i = cacheKey f' i') : f = f' ∧ i = i' := by
  rcases List.append_eq_append_iff.mp h with ⟨as, rfl, has⟩ | ⟨bs, rfl, hbs⟩
  · cases as with
    | nil => exact ⟨(List.append_nil f).symm, (List.cons.inj has).2⟩
    | cons a as =>
        obtain ⟨rfl, rfl⟩ := List.cons.inj has
        exact absurd ⟨by simp, by simp⟩ hif
  · cases bs with
    | nil => exact ⟨List.append_nil f', (List.cons.inj hbs).2.symm⟩
    | cons b bs =>
        obtain ⟨rfl, rfl⟩ := List.cons.inj hbs
        exact absurd ⟨by simp, by simp⟩ hfi

/-- The credential was issued for a token that verified with the same
scope. -/
def Shared.IssuedFor (p : Peers) (s : Shared) (cred : List Char) (c : Claims) : Prop :=
  ∃ tok c', ⟨cred, tok⟩ ∈ s.issued ∧ p.Verified tok c' ∧
    c'.filesystemID = c.filesystemID ∧ c'.intent = c.intent

/-- No token that something was issued for has the separator in its intent
while it is in the `filesystem_id` at hand, nor the other way round. -/
def Shared.Separated (p : Peers) (s : Shared) (c : Claims) : Prop :=
  ∀ iss ∈ s.issued, ∀ c', p.Verified iss.subject c' →
    ¬ (nul ∈ c'.filesystemID ∧ nul ∈ c.intent) ∧ ¬ (nul ∈ c'.intent ∧ nul ∈ c.filesystemID)

/-- The invariant holds in every reachable state of the edge. -/
theorem inv_of_reachable {p : Peers} {renewSkew : Int} {t : Shared × List (EdgeProg Response)}
    (h : (edge p renewSkew).Reachable t) : Inv p t.1 := by
  refine (Discipline.reachable_guarded (D := discipline p renewSkew) (Q := fun _ _ => True)
    ?_ ?_ h).1
  · rintro s rfl
    exact ⟨⟨nofun, nofun, nofun⟩, nofun⟩
  · rintro _ ⟨req, rfl⟩ s -
    exact guarded_serveHTTP p renewSkew s req

/-- **Credential binding**: in every interleaving of requests through the
edge, a request is sent upstream only for a token that verified when the edge
looked at it; and unless the separator stands in its scope and in another's,
the credential that is sent was issued for a token of the same scope. -/
theorem injected_credential_bound (p : Peers) (renewSkew : Int)
    (t : Shared × List (EdgeProg Response)) (h : (edge p renewSkew).Reachable t) :
    ∀ inj ∈ t.1.upstream, ∃ c, p.verify inj.weak inj.now = .ok c ∧
      (t.1.Separated p c → t.1.IssuedFor p inj.req.cred c) := by
  intro inj hinj
  obtain ⟨c, hc, tok, c', hmem, hc', hkey⟩ := (inv_of_reachable h).upstream inj hinj
  refine ⟨c, hc, fun hsep => ⟨tok, c', hmem, hc', ?_⟩⟩
  obtain ⟨hfi, hif⟩ := hsep _ hmem c' hc'
  exact cacheKey_inj hfi hif hkey

/-- The first request: the credential was issued for its own token. -/
theorem injected_credential_bound_first :
    (edge mintedPeers (30 * second)).Reachable (servedShort, [.ret (.forwarded 200)]) ∧
      servedShort.upstream = [sent tokenShort] ∧
      servedShort.IssuedFor mintedPeers opaqueCred (claimsOf ['a'] ['b', nul, 'c']) := by
  refine ⟨reachable_short _, rfl, ?_⟩
  obtain ⟨c, hc, hbound⟩ := injected_credential_bound mintedPeers (30 * second) _
    (reachable_short _) (sent tokenShort) List.mem_cons_self
  cases Peers.Verified.unique ⟨_, hc⟩ ⟨_, accepted_short.verify⟩
  refine hbound fun iss hiss c' hc' => ?_
  rw [List.mem_singleton.mp hiss] at hc'
  cases hc'.unique ⟨_, accepted_short.verify⟩
  exact ⟨by decide, by decide⟩

/-- The intent of the one token and the `filesystem_id` of the other hold the
separator: the second request is sent with the credential of the first. -/
theorem separator_shares_credential :
    ∃ t, (edge mintedPeers (30 * second)).Reachable t ∧ ∃ inj ∈ t.1.upstream, ∃ c,
      mintedPeers.verify inj.weak inj.now = .ok c ∧
        ¬ t.1.IssuedFor mintedPeers inj.req.cred c := by
  refine ⟨_, reachable_both _, sent tokenLong, List.mem_cons_self, _, accepted_long.verify, ?_⟩
  rintro ⟨tok, c', hmem, hc', hfs, -⟩
  obtain ⟨-, rfl⟩ := Issued.mk.inj (List.mem_singleton.mp hmem)
  cases hc'.unique ⟨_, accepted_short.verify⟩
  exact absurd hfs (by decide)

/-! ## token readers -/

/-- The fields of the scope claims; true is the `filesystem_id`. -/
def scopeField : ClaimsField → Option Bool
  | .filesystemID => some true
  | .intent => some false
  | _ => none

/-- The scope claims hold what the claims hold. -/
def SameScope (c : Claims) (sc : List Char × List Char) : Prop :=
  c.filesystemID = sc.1 ∧ c.intent = sc.2

/-- The other claims leave the scope alone. -/
theorem SameScope.skip {c : Claims} {sc : List Char × List Char} {v : Json} {f : ClaimsField}
    {c' : Claims} (h : SameScope c sc) (hset : c.set v f = .ok c') (hf : scopeField f = none) :
    SameScope c' sc := by
  cases f with
  | filesystemID => cases hf
  | intent => cases hf
  | _ =>
      obtain ⟨a, -, ha⟩ := bind_ok_iff.mp hset
      cases ha
      exact h

/-- The two claims of the scope are set alike by both decoders. -/
theorem SameScope.set {c : Claims} {sc : List Char × List Char} {v : Json} {f : ClaimsField}
    {c' : Claims} {isFSID : Bool} (h : SameScope c sc) (hset : c.set v f = .ok c')
    (hf : scopeField f = some isFSID) :
    ∃ sc', (if isFSID then return (← Mountcfg.decodeString sc.1 v, sc.2)
      else return (sc.1, ← Mountcfg.decodeString sc.2 v)) = Except.ok sc' ∧ SameScope c' sc' := by
  obtain ⟨hfs, hintent⟩ := h
  cases f with
  | filesystemID =>
      cases hf
      obtain ⟨a, ha, hc⟩ := bind_ok_iff.mp hset
      cases hc
      exact ⟨(a, sc.2), bind_ok_iff.mpr ⟨a, hfs ▸ ha, rfl⟩, rfl, hintent⟩
  | intent =>
      cases hf
      obtain ⟨a, ha, hc⟩ := bind_ok_iff.mp hset
      cases hc
      exact ⟨(sc.1, a), bind_ok_iff.mpr ⟨a, hintent ▸ ha, rfl⟩, hfs, rfl⟩
  | _ => cases hf

/-- The scope a token claims is the one the verifier reads. -/
theorem filesystemIDClaim_of_tokenClaims {token : List Char} {c : Claims}
    (h : tokenClaims token = some c) (hfs : c.filesystemID ≠ []) :
    filesystemIDClaim token = .ok c.filesystemID := by
  obtain ⟨header, payload, sig, payloadJSON, c', hsplit, hdec, hjson, hid, -⟩ :=
    exists_payload_of_tokenClaims h
  have htable : [("filesystem_id".toList, true), ("intent".toList, false)] =
      Harness.someFields scopeField claimsFields := by
    decide +kernel
  have hzero : SameScope .zero ([], []) := ⟨rfl, rfl⟩
  obtain ⟨sc, hread, hsc, -⟩ := Harness.unmarshal_someFields _ claimsFields_distinct
    @SameScope.skip @SameScope.set hzero hjson
  rw [← htable] at hread
  have hne : sc.1 ≠ [] := by rwa [← hsc, hid]
  rw [filesystemIDClaim, splitAtDots_eq_some_iff.mp hsplit]
  dsimp only
  rw [hdec]
  dsimp only
  rw [hread]
  dsimp only
  rw [if_neg hne, ← hsc, hid]

/-- **The readers of a token agree**: on bytes and on characters, the index
scan finds three segments exactly when cutting at every separator gives three,
and returns those; and of a token that verifies with a scope, the two readers
that do not check the signature read the same scope and the same expiry. -/
theorem token_readers_agree :
    (∀ token header payload sig : List UInt8,
      splitAtDots 46 token = some (header, payload, sig) ↔
        token.splitOn 46 = [header, payload, sig]) ∧
    (∀ token header payload sig : List Char,
      splitToken token = some (header, payload, sig) ↔
        token.splitOn '.' = [header, payload, sig]) ∧
    ∀ (ec : Ecdsa) (jwks : List JWK) (iss aud : List Char) (now : Time) (token : List Char)
      (c : Claims), Jwtmint.verify ec token jwks iss aud now = .ok c → c.filesystemID ≠ [] →
        filesystemIDClaim token = .ok c.filesystemID ∧ expiryUnverified token = some c.expiry := by
  refine ⟨fun _ _ _ _ => splitAtDots_eq_some_iff, fun _ _ _ _ => splitAtDots_eq_some_iff, ?_⟩
  intro ec jwks iss aud now token c h hfs
  have hclaims := claims_of_verify h
  exact ⟨filesystemIDClaim_of_tokenClaims hclaims hfs, expiryUnverified_of_tokenClaims hclaims⟩

/-- A minted token. -/
theorem token_readers_agree_short :
    mintedPeers.verify tokenShort (ofUnix 0) = .ok (claimsOf ['a'] ['b', nul, 'c']) ∧
      filesystemIDClaim tokenShort = .ok ['a'] ∧ expiryUnverified tokenShort = some 3600 :=
  ⟨accepted_short.verify, token_readers_agree.2.2 _ _ _ _ _ _ _ accepted_short.verify
    accepted_short.filesystemID⟩

end OcuFilestore.Edge
