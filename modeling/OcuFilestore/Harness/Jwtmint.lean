import OcuFilestore.Go.Base64
import OcuFilestore.Go.Sha256
import OcuFilestore.Go.Time
import OcuFilestore.Harness.Json

/-!
# OcuFilestore.Harness.Jwtmint

The token verifier of the harness (`test/harness/internal/jwtmint`): compact
ES256 tokens against a published key set.

The arithmetic of the curve is a parameter (`Ecdsa`).  What the verifier
returns is a function of the token; the key set, the names it expects and the
clock only decide whether it returns anything (`claims_of_verify`).
-/

namespace OcuFilestore.Jwtmint

open Mountcfg (JsonErr decodeString decodeBool decodeInt)
open Harness (orKeep fillStruct unmarshal DistinctNames unmarshal_someFields)

/-! ## claims -/

structure Claims where
  issuer : List Char
  audience : List Char
  subject : List Char
  issuedAt : Int
  expiry : Int
  filesystemID : List Char
  intent : List Char
  /-- The intent nested under `authz`. -/
  authzIntent : List Char
  downloadable : Bool
  deriving DecidableEq, Repr

def Claims.zero : Claims := ⟨[], [], [], 0, 0, [], [], [], false⟩

inductive ClaimsField where
  | issuer
  | audience
  | subject
  | issuedAt
  | expiry
  | filesystemID
  | intent
  | authz
  | downloadable
  deriving DecidableEq, Repr

def claimsFields : List (List Char × ClaimsField) :=
  [("iss".toList, .issuer), ("aud".toList, .audience), ("sub".toList, .subject),
    ("iat".toList, .issuedAt), ("exp".toList, .expiry),
    ("filesystem_id".toList, .filesystemID), ("intent".toList, .intent),
    ("authz".toList, .authz), ("downloadable".toList, .downloadable)]

/-- The `authz` object: its one field. -/
def decodeAuthz (cur : List Char) (v : Json) : Except JsonErr (List Char) :=
  fillStruct [("intent".toList, ())] (fun cur v _ => decodeString cur v) cur v

def Claims.set (c : Claims) (v : Json) : ClaimsField → Except JsonErr Claims
  | .issuer => return { c with issuer := ← decodeString c.issuer v }
  | .audience => return { c with audience := ← decodeString c.audience v }
  | .subject => return { c with subject := ← decodeString c.subject v }
  | .issuedAt => return { c with issuedAt := ← orKeep decodeInt c.issuedAt v }
  | .expiry => return { c with expiry := ← orKeep decodeInt c.expiry v }
  | .filesystemID => return { c with filesystemID := ← decodeString c.filesystemID v }
  | .intent => return { c with intent := ← decodeString c.intent v }
  | .authz => return { c with authzIntent := ← decodeAuthz c.authzIntent v }
  | .downloadable => return { c with downloadable := ← orKeep decodeBool c.downloadable v }

structure JoseHeader where
  alg : List Char
  typ : List Char
  kid : List Char
  deriving DecidableEq, Repr

inductive HeaderField where
  | alg
  | typ
  | kid
  deriving DecidableEq, Repr

def headerFields : List (List Char × HeaderField) :=
  [("alg".toList, .alg), ("typ".toList, .typ), ("kid".toList, .kid)]

def JoseHeader.set (h : JoseHeader) (v : Json) : HeaderField → Except JsonErr JoseHeader
  | .alg => return { h with alg := ← decodeString h.alg v }
  | .typ => return { h with typ := ← decodeString h.typ v }
  | .kid => return { h with kid := ← decodeString h.kid v }

/-- The issuer and the audience that the commands of the harness agree on. -/
def cpIssuer : List Char := "https://control-plane.test".toList
def cpAudience : List Char := "filestore-edge".toList

/-! ## keys -/

/-- One published key. -/
structure JWK where
  kty : List Char
  crv : List Char
  kid : List Char
  x : List Char
  y : List Char
  deriving DecidableEq, Repr

/-- P-256: which encoded points are on the curve, and which signatures of a
digest verify under one. -/
structure Ecdsa where
  onCurve : List UInt8 → Bool
  verify : List UInt8 → List UInt8 → List UInt8 → Bool

/-- Zeros in front, up to 32 bytes. -/
def leftPad (bs : List UInt8) : Option (List UInt8) :=
  if bs.length > 32 then none else some (List.replicate (32 - bs.length) 0 ++ bs)

/-- The encoded point of a key. -/
def JWK.publicKey (ec : Ecdsa) (k : JWK) : Except (List Frag) (List UInt8) :=
  if k.kty ≠ "EC".toList then .error [.lit "jwtmint: unsupported kty ", .quoted k.kty]
  else if k.crv ≠ "P-256".toList then .error [.lit "jwtmint: unsupported crv ", .quoted k.crv]
  else
    match Base64.decodeRawURL k.x, Base64.decodeRawURL k.y with
    | none, _ => .error [.lit "jwtmint: x is not base64url"]
    | some _, none => .error [.lit "jwtmint: y is not base64url"]
    | some xb, some yb =>
        match leftPad xb, leftPad yb with
        | some xf, some yf =>
            let point := 4 :: (xf ++ yf)
            if ec.onCurve point then .ok point
            else .error [.lit "jwtmint: jwk coordinates are not on P-256"]
        | _, _ => .error [.lit "jwtmint: coordinate exceeds P-256 width"]

/-! ## tokens -/

section Split

variable {α : Type} [DecidableEq α] {dot : α}

/-- The loop of `splitToken`: where the first and the second separator are, as
far as they were found; a third one ends it. -/
def scanDots (dot : α) : Nat → Option Nat → Option Nat → List α → Option (Option Nat × Option Nat)
  | _, first, second, [] => some (first, second)
  | i, first, second, c :: cs =>
      if c = dot then
        match first, second with
        | none, _ => scanDots dot (i + 1) (some i) second cs
        | some _, none => scanDots dot (i + 1) first (some i) cs
        | some _, some _ => none
      else scanDots dot (i + 1) first second cs

/-- `splitToken` over any alphabet: tokens are read here as characters, the
code goes through their bytes. -/
def splitAtDots (dot : α) (token : List α) : Option (List α × List α × List α) :=
  match scanDots dot 0 none none token with
  | some (some first, some second) =>
      if first = second then none
      else some (token.take first, (token.take second).drop (first + 1), token.drop (second + 1))
  | _ => none

/-- Nothing is found up to the next separator. -/
theorem scanDots_append {xs : List α} (hxs : dot ∉ xs) (i : Nat) (first second : Option Nat)
    (ys : List α) :
    scanDots dot i first second (xs ++ ys) = scanDots dot (i + xs.length) first second ys := by
  induction xs generalizing i with
  | nil => rfl
  | cons x xs ih =>
      rw [List.mem_cons, not_or] at hxs
      rw [List.cons_append, scanDots.eq_def]
      dsimp only
      rw [if_neg (Ne.symm hxs.1), ih hxs.2, List.length_cons]
      congr 1
      omega

/-- Text without a dot moves no mark. -/
theorem scanDots_of_notMem {xs : List α} (hxs : dot ∉ xs) (i : Nat) (first second : Option Nat) :
    scanDots dot i first second xs = some (first, second) := by
  rw [← List.append_nil xs, scanDots_append hxs, scanDots]

theorem splitOn_of_notMem {xs : List α} (hxs : dot ∉ xs) : xs.splitOn dot = [xs] := by
  have h : ([dot].intercalate [xs]).splitOn dot = [xs] :=
    List.splitOn_intercalate dot (by simpa using hxs) (by simp)
  simpa [List.intercalate] using h

theorem splitOn_append_cons {xs : List α} (hxs : dot ∉ xs) (ys : List α) :
    (xs ++ dot :: ys).splitOn dot = xs :: ys.splitOn dot := by
  have h : (xs ++ dot :: ys).splitOn dot = xs.splitOn dot ++ ys.splitOn dot :=
    List.splitOnP_append_cons xs ys (by simp)
  rw [h, splitOn_of_notMem hxs, List.singleton_append]

/-- The segments are those between the separators. -/
theorem splitAtDots_two {header payload sig : List α} (hh : dot ∉ header) (hp : dot ∉ payload)
    (hs : dot ∉ sig) :
    splitAtDots dot (header ++ dot :: (payload ++ dot :: sig)) = some (header, payload, sig) := by
  have hscan : scanDots dot 0 none none (header ++ dot :: (payload ++ dot :: sig)) =
      some (some header.length, some (header.length + 1 + payload.length)) := by
    rw [scanDots_append hh, scanDots, if_pos rfl, scanDots_append hp, scanDots, if_pos rfl,
      scanDots_of_notMem hs, Nat.zero_add]
  have hfirst : (header ++ dot :: (payload ++ dot :: sig)).take header.length = header :=
    List.take_left' rfl
  have hassoc : header ++ dot :: (payload ++ dot :: sig) =
      (header ++ dot :: payload) ++ dot :: sig := by
    simp
  have hlen : (header ++ dot :: payload).length = header.length + 1 + payload.length := by
    simp only [List.length_append, List.length_cons]
    omega
  have hsecond : (header ++ dot :: (payload ++ dot :: sig)).take
      (header.length + 1 + payload.length) = header ++ dot :: payload := by
    rw [hassoc, List.take_left' hlen]
  have hrest : (header ++ dot :: (payload ++ dot :: sig)).drop
      (header.length + 1 + payload.length + 1) = sig := by
    rw [hassoc, ← hlen, List.drop_append]
    simp
  have hpayload : (header ++ dot :: payload).drop (header.length + 1) = payload := by
    rw [List.drop_append]
    simp
  rw [splitAtDots, hscan]
  dsimp only
  rw [if_neg (by omega), hfirst, hsecond, hrest, hpayload]

/-- Beyond the second separator a third one is an error. -/
theorem scanDots_three {xs : List α} (hxs : dot ∈ xs) (i j k : Nat) :
    scanDots dot i (some j) (some k) xs = none := by
  obtain ⟨as, bs, rfl, has⟩ := List.eq_append_cons_of_mem hxs
  rw [scanDots_append has, scanDots, if_pos rfl]

/-- The scan finds three segments exactly when cutting at every separator
gives three, and they are the same. -/
theorem splitAtDots_eq_some_iff {token header payload sig : List α} :
    splitAtDots dot token = some (header, payload, sig) ↔
      token.splitOn dot = [header, payload, sig] := by
  by_cases h₁ : dot ∈ token
  · obtain ⟨xs, ys, rfl, hxs⟩ := List.eq_append_cons_of_mem h₁
    rw [splitOn_append_cons hxs]
    by_cases h₂ : dot ∈ ys
    · obtain ⟨ys, zs, rfl, hys⟩ := List.eq_append_cons_of_mem h₂
      rw [splitOn_append_cons hys]
      by_cases h₃ : dot ∈ zs
      · obtain ⟨zs, us, rfl, hzs⟩ := List.eq_append_cons_of_mem h₃
        have hscan : scanDots dot 0 none none (xs ++ dot :: (ys ++ dot :: (zs ++ dot :: us))) =
            none := by
          rw [scanDots_append hxs, scanDots, if_pos rfl, scanDots_append hys, scanDots, if_pos rfl]
          exact scanDots_three h₃ _ _ _
        have hne : us.splitOn dot ≠ [] := List.splitOnP_ne_nil _ us
        rw [splitOn_append_cons hzs, splitAtDots, hscan]
        simp [hne]
      · rw [splitAtDots_two hxs hys h₃, splitOn_of_notMem h₃]
        simp
    · have hscan : scanDots dot 0 none none (xs ++ dot :: ys) =
          some (some (0 + xs.length), none) := by
        rw [scanDots_append hxs, scanDots, if_pos rfl]
        exact scanDots_of_notMem h₂ _ _ _
      rw [splitOn_of_notMem h₂, splitAtDots, hscan]
      simp
  · rw [splitOn_of_notMem h₁, splitAtDots, scanDots_of_notMem h₁]
    simp

end Split

/-- The three segments of a compact token. -/
def splitToken (token : List Char) : Option (List Char × List Char × List Char) :=
  splitAtDots '.' token

/-- Three parts without dots are split where they were joined. -/
theorem splitToken_join {header payload sig : List Char} (hh : '.' ∉ header)
    (hp : '.' ∉ payload) (hs : '.' ∉ sig) :
    splitToken (header ++ '.' :: (payload ++ '.' :: sig)) = some (header, payload, sig) :=
  splitAtDots_two hh hp hs

/-- The failure classes of the verifier. -/
inductive VerifyErr where
  | untrusted (why : List Frag)
  | badSignature (why : List Frag)
  | noExpiry
  | expired
  deriving DecidableEq, Repr

/-- The claims of a payload segment, with the fallback to the nested intent. -/
def payloadClaims (payload : List Char) : Except VerifyErr Claims :=
  match Base64.decodeRawURL payload with
  | none => .error (.untrusted [.lit "payload is not base64url"])
  | some payloadJSON =>
      match unmarshal claimsFields Claims.set .zero payloadJSON with
      | .error _ => .error (.untrusted [.lit "payload is not JSON"])
      | .ok c => .ok { c with intent := if c.intent = [] then c.authzIntent else c.intent }

/-- The header names a known key and the signature verifies under it. -/
def checkSignature (ec : Ecdsa) (jwks : List JWK) (header payload sig : List Char) :
    Except VerifyErr Unit :=
  match Base64.decodeRawURL header with
  | none => .error (.untrusted [.lit "header is not base64url"])
  | some headerJSON =>
      match unmarshal headerFields JoseHeader.set ⟨[], [], []⟩ headerJSON with
      | .error _ => .error (.untrusted [.lit "header is not JSON"])
      | .ok h =>
          if h.alg ≠ "ES256".toList then
            .error (.untrusted [.lit "unexpected alg ", .quoted h.alg])
          else
            match jwks.find? fun k => k.kid = h.kid with
            | none => .error (.untrusted [.lit "unknown kid ", .quoted h.kid])
            | some jwk =>
                match jwk.publicKey ec with
                | .error why => .error (.untrusted (.lit "jwk: " :: why))
                | .ok pub =>
                    match Base64.decodeRawURL sig with
                    | none => .error (.badSignature [.lit "signature is not base64url"])
                    | some rs =>
                        if rs.length ≠ 64 then
                          .error (.badSignature [.lit "signature must be 64 bytes, got ",
                            .int rs.length])
                        else if ec.verify pub
                            (sum256 (String.ofList (header ++ '.' :: payload)).toUTF8.toList)
                            rs then
                          .ok ()
                        else .error (.badSignature [])

/-- What a token needs for its signature to pass. -/
theorem checkSignature_ok {ec : Ecdsa} {jwks : List JWK} {header payload sig : List Char}
    {headerJSON rs pub : List UInt8} {h : JoseHeader} {jwk : JWK}
    (hdec : Base64.decodeRawURL header = some headerJSON)
    (hjson : unmarshal headerFields JoseHeader.set ⟨[], [], []⟩ headerJSON = .ok h)
    (halg : h.alg = "ES256".toList) (hfind : jwks.find? (fun k => k.kid = h.kid) = some jwk)
    (hkey : jwk.publicKey ec = .ok pub) (hsig : Base64.decodeRawURL sig = some rs)
    (hlen : rs.length = 64)
    (hverify : ec.verify pub
      (sum256 (String.ofList (header ++ '.' :: payload)).toUTF8.toList) rs = true) :
    checkSignature ec jwks header payload sig = .ok () := by
  simp only [checkSignature, hdec, hjson, halg, hfind, hkey, hsig, hlen, hverify, ne_eq,
    not_true_eq_false, if_false, if_true]

/-- The registered claims; an empty expectation is not checked. -/
def checkClaims (iss aud : List Char) (now : Time) (c : Claims) : Except VerifyErr Unit :=
  if iss ≠ [] ∧ c.issuer ≠ iss then
    .error (.untrusted [.lit "issuer ", .quoted c.issuer, .lit " != expected ", .quoted iss])
  else if aud ≠ [] ∧ c.audience ≠ aud then
    .error (.untrusted [.lit "audience ", .quoted c.audience, .lit " != expected ", .quoted aud])
  else if c.expiry = 0 then .error .noExpiry
  else if now < ofUnix c.expiry then .ok ()
  else .error .expired

def verify (ec : Ecdsa) (token : List Char) (jwks : List JWK) (iss aud : List Char) (now : Time) :
    Except VerifyErr Claims :=
  match splitToken token with
  | none => .error (.untrusted [.lit "malformed token"])
  | some (header, payload, sig) => do
      checkSignature ec jwks header payload sig
      let c ← payloadClaims payload
      checkClaims iss aud now c
      return c

/-- What a token needs to be verified. -/
theorem verify_ok {ec : Ecdsa} {token : List Char} {jwks : List JWK} {iss aud : List Char}
    {now : Time} {header payload sig : List Char} {c : Claims}
    (hsplit : splitToken token = some (header, payload, sig))
    (hsig : checkSignature ec jwks header payload sig = .ok ())
    (hc : payloadClaims payload = .ok c) (hclaims : checkClaims iss aud now c = .ok ()) :
    verify ec token jwks iss aud now = .ok c := by
  simp [verify, hsplit, hsig, hc, hclaims, bind, Except.bind, pure, Except.pure]

/-- The claims of a token, whoever signed it. -/
def tokenClaims (token : List Char) : Option Claims :=
  (splitToken token).bind fun t => (payloadClaims t.2.1).toOption

/-- A token that verifies has its own claims, under every key set and clock. -/
theorem claims_of_verify {ec : Ecdsa} {token : List Char} {jwks : List JWK} {iss aud : List Char}
    {now : Time} {c : Claims} (h : verify ec token jwks iss aud now = .ok c) :
    tokenClaims token = some c := by
  unfold verify at h
  split at h
  · cases h
  · next header payload sig hsplit =>
      cases hsig : checkSignature ec jwks header payload sig with
      | error e => simp [hsig, Except.bind, bind] at h
      | ok u =>
          cases hc : payloadClaims payload with
          | error e => simp [hsig, hc, Except.bind, bind] at h
          | ok c' =>
              cases hcheck : checkClaims iss aud now c' with
              | error e => simp [hsig, hc, hcheck, Except.bind, bind] at h
              | ok u' =>
                  simp [hsig, hc, hcheck, Except.bind, bind, pure, Except.pure] at h
                  simp [tokenClaims, hsplit, hc, Except.toOption, h]

/-- The expiry of a token, without a signature check. -/
def expiryUnverified (token : List Char) : Option Int :=
  (splitToken token).bind fun t => (Base64.decodeRawURL t.2.1).bind fun payloadJSON =>
    (unmarshal [("exp".toList, ())] (fun exp v _ => orKeep decodeInt exp v) 0 payloadJSON).toOption

/-- An expiry is an `int64`. -/
theorem expiryUnverified_range {token : List Char} {exp : Int}
    (h : expiryUnverified token = some exp) : -maxInt64 - 1 ≤ exp ∧ exp ≤ maxInt64 := by
  obtain ⟨t, -, h⟩ := Option.bind_eq_some_iff.mp h
  obtain ⟨payloadJSON, -, h⟩ := Option.bind_eq_some_iff.mp h
  have hset (cur : Int) (v : Json) (_ : Unit) (next : Int)
      (hcur : -maxInt64 - 1 ≤ cur ∧ cur ≤ maxInt64) (h : orKeep decodeInt cur v = .ok next) :
      -maxInt64 - 1 ≤ next ∧ next ≤ maxInt64 := by
    unfold orKeep at h
    split at h
    · cases h
      exact hcur
    · exact Mountcfg.decodeInt_range h
  exact Harness.unmarshal_keeps hset (by decide) (ok_of_toOption h)

/-! ## readers of one token -/

/-- No two claims have names that fold alike. -/
theorem claimsFields_distinct : DistinctNames claimsFields := by decide +kernel

/-- The payload a token's claims are read from. -/
theorem exists_payload_of_tokenClaims {token : List Char} {c : Claims}
    (h : tokenClaims token = some c) :
    ∃ header payload sig payloadJSON c', splitToken token = some (header, payload, sig) ∧
      Base64.decodeRawURL payload = some payloadJSON ∧
      unmarshal claimsFields Claims.set .zero payloadJSON = .ok c' ∧
      c'.filesystemID = c.filesystemID ∧ c'.expiry = c.expiry := by
  obtain ⟨⟨header, payload, sig⟩, hsplit, hc⟩ := Option.bind_eq_some_iff.mp h
  have hclaims := ok_of_toOption hc
  unfold payloadClaims at hclaims
  dsimp only at hclaims
  split at hclaims
  · cases hclaims
  · next payloadJSON hdec =>
      split at hclaims
      · cases hclaims
      · next c' hjson =>
          cases hclaims
          exact ⟨header, payload, sig, payloadJSON, c', hsplit, hdec, hjson, rfl, rfl⟩

/-- A field sets its own value and no other's. -/
theorem Claims.set_expiry_of_ne {c c' : Claims} {v : Json} {f : ClaimsField}
    (h : c.set v f = .ok c') (hf : f ≠ .expiry) : c'.expiry = c.expiry := by
  cases f with
  | expiry => exact absurd rfl hf
  | _ =>
      obtain ⟨a, -, ha⟩ := bind_ok_iff.mp h
      cases ha
      rfl

/-- The expiry is read as the probe reads it. -/
theorem Claims.set_expiry {c c' : Claims} {v : Json} (h : c.set v .expiry = .ok c') :
    orKeep decodeInt c.expiry v = .ok c'.expiry := by
  obtain ⟨a, ha, hc⟩ := bind_ok_iff.mp h
  cases hc
  exact ha

/-- The one field of the lifetime probe. -/
def ClaimsField.probed (f : ClaimsField) : Option Unit := if f = .expiry then some () else none

theorem ClaimsField.probed_eq_none_iff {f : ClaimsField} : f.probed = none ↔ f ≠ .expiry := by
  simp [probed]

theorem ClaimsField.probed_eq_some_iff {f : ClaimsField} {u : Unit} :
    f.probed = some u ↔ f = .expiry := by
  simp [probed]

/-- The expiry is read as the verifier reads it. -/
theorem expiryUnverified_of_tokenClaims {token : List Char} {c : Claims}
    (h : tokenClaims token = some c) : expiryUnverified token = some c.expiry := by
  obtain ⟨header, payload, sig, payloadJSON, c', hsplit, hdec, hjson, -, hexp⟩ :=
    exists_payload_of_tokenClaims h
  have htable : [("exp".toList, ())] = Harness.someFields ClaimsField.probed claimsFields := by
    decide +kernel
  have hskip (c : Claims) (exp : Int) (v : Json) (f : ClaimsField) (c' : Claims)
      (hT : c.expiry = exp) (hset : c.set v f = .ok c') (hf : f.probed = none) :
      c'.expiry = exp :=
    (Claims.set_expiry_of_ne hset (ClaimsField.probed_eq_none_iff.mp hf)).trans hT
  have hset (c : Claims) (exp : Int) (v : Json) (f : ClaimsField) (c' : Claims) (u : Unit)
      (hT : c.expiry = exp) (hset : c.set v f = .ok c') (hf : f.probed = some u) :
      ∃ exp', orKeep decodeInt exp v = .ok exp' ∧ c'.expiry = exp' := by
    cases ClaimsField.probed_eq_some_iff.mp hf
    exact ⟨c'.expiry, hT ▸ Claims.set_expiry hset, rfl⟩
  have hread := unmarshal_someFields (fun exp v (_ : Unit) => orKeep decodeInt exp v)
    claimsFields_distinct hskip hset rfl hjson
  obtain ⟨exp, hread, heq⟩ := hread
  rw [← htable] at hread
  rw [expiryUnverified, hsplit, Option.bind_some, hdec, Option.bind_some]
  exact (congrArg Except.toOption hread).trans (congrArg some (heq.symm.trans hexp))

end OcuFilestore.Jwtmint
