import OcuFilestore.Brokerrpc.Client
import OcuFilestore.Go.Strings
import OcuFilestore.Go.Url
import OcuFilestore.Mountcfg.Decode

/-!
# OcuFilestore.Brokerrpc.Route

Where the client sends an operation (`NewWithOptions` and `opURL`,
`internal/brokerrpc/client.go`).  The service URL passes two validators, the
loader's and the constructor's, and the route is then appended to its text.

Both validators accept a URL with a query or a fragment.  The route is
appended behind these, so that the path of the request is the service URL's
own; without them it is what it is meant to be.
-/

namespace OcuFilestore.Brokerrpc

open Uri Mountcfg

/-! ## the constructor -/

/-- A zero stands for the default. -/
structure ClientOptions where
  messageCeiling : Int
  maxDownloadBytes : Int

def defaultMessageCeiling : Int := 256 * 1024
def defaultMaxDownloadBytes : Int := 17179869184
def defaultMaxListPages : Nat := 65536

section New

-- whether `AppendCertsFromPEM` finds a certificate
variable (appendCertsFromPEM : List UInt8 → Bool)

def httpsTransport (caCertPEM : List UInt8) : Except Err Unit :=
  if caCertPEM = [] then .error (.text [.lit "brokerrpc: ca_cert_pem must not be empty"])
  else if !appendCertsFromPEM caCertPEM then
    .error (.text [.lit "brokerrpc: ca_cert_pem contains no usable certificate"])
  else .ok ()

/-- The reason that the parser gives for a refusal is left out. -/
def newWithOptions (serviceURL : List Char) (fsID authToken : String) (caCertPEM : List UInt8)
    (opts : ClientOptions) : Except Err Client :=
  if serviceURL = [] then .error (.text [.lit "brokerrpc.New: serviceURL must not be empty"])
  else
    match URL.parseReference serviceURL with
    | none =>
        .error (.wrap [.lit "brokerrpc.New: serviceURL is not a valid URL: "]
          (.text [.lit "parse ", .quoted serviceURL]) [])
    | some u =>
        if u.scheme ≠ URL.https then
          .error (.text [.lit "brokerrpc.New: serviceURL must be an https:// URL, got scheme ",
            .quoted u.scheme])
        else if u.host = [] then
          .error (.text [.lit "brokerrpc.New: serviceURL must include a host"])
        else if fsID = "" then .error (.text [.lit "brokerrpc.New: fsID must not be empty"])
        else if authToken = "" then
          .error (.text [.lit "brokerrpc.New: authToken must not be empty"])
        else if caCertPEM = [] then
          .error (.text [.lit "brokerrpc.New: caCertPEM must not be empty"])
        else
          match httpsTransport appendCertsFromPEM caCertPEM with
          | .error e => .error (.wrap [.lit "brokerrpc.New: build transport: "] e [])
          | .ok () =>
              .ok { serviceURL := String.ofList serviceURL
                    fsID := fsID
                    authToken := authToken
                    messageCeiling :=
                      if opts.messageCeiling ≤ 0 then defaultMessageCeiling
                      else opts.messageCeiling
                    maxDownloadBytes :=
                      if opts.maxDownloadBytes ≤ 0 then defaultMaxDownloadBytes
                      else opts.maxDownloadBytes
                    maxListPages := defaultMaxListPages }

variable {appendCertsFromPEM}

/-- What the constructor keeps and has checked of the service URL. -/
theorem of_newWithOptions {serviceURL : List Char} {fsID authToken : String}
    {caCertPEM : List UInt8} {opts : ClientOptions} {c : Client}
    (h : newWithOptions appendCertsFromPEM serviceURL fsID authToken caCertPEM opts = .ok c) :
    c.serviceURL = String.ofList serviceURL ∧
      ∃ u, URL.parseReference serviceURL = some u ∧ u.host ≠ [] := by
  unfold newWithOptions at h
  simp only [guard_ok_iff] at h
  cases hu : URL.parseReference serviceURL with
  | none => simp [hu] at h
  | some u =>
      simp only [hu, guard_ok_iff] at h
      obtain ⟨-, -, hhost, -, -, -, h⟩ := h
      cases ht : httpsTransport appendCertsFromPEM caCertPEM with
      | error e => simp [ht] at h
      | ok _ =>
          rw [ht] at h
          cases h
          exact ⟨rfl, u, rfl, hhost⟩

end New

/-! ## the route -/

def restBase : List Char := "v1/filestore/fs/".toList

/-- The URL an operation is posted to. -/
def Client.opURL (c : Client) (op : Op) : List Char :=
  trimRight '/' c.serviceURL.toList ++ ['/'] ++ restBase ++ op.name.toList

/-- The operation's URL has the scheme and the authority of the service URL,
and its path with the route appended. -/
def Routed (serviceURL opURL : List Char) (op : Op) : Prop :=
  (split opURL).scheme = (split serviceURL).scheme ∧
  (split opURL).authority = (split serviceURL).authority ∧
  (split opURL).path = trimRight '/' (split serviceURL).path ++
    ("/v1/filestore/fs/".toList ++ op.name.toList)

instance (serviceURL opURL : List Char) (op : Op) : Decidable (Routed serviceURL opURL op) :=
  inferInstanceAs (Decidable (_ ∧ _ ∧ _))

/-- What is appended to a service URL. -/
def Op.route (op : Op) : List Char := '/' :: (restBase ++ op.name.toList)

/-- Every route is one directory and the operation's name. -/
theorem Op.route_eq (op : Op) : op.route = "/v1/filestore/fs/".toList ++ op.name.toList := by
  have hbase : "/v1/filestore/fs/".toList = '/' :: restBase := by decide
  rw [hbase, Op.route, List.cons_append]

/-- The name of an operation has letters only. -/
theorem Op.name_alpha (op : Op) :
    op.name.toList ≠ [] ∧ ∀ c ∈ op.name.toList, c.isAlpha = true := by
  have h : (!op.name.toList.isEmpty && op.name.toList.all Char.isAlpha) = true := by
    cases op <;> decide
  simpa using h

/-- No route has a query or a fragment in it. -/
theorem Op.route_free (op : Op) : ∀ c ∈ op.route, c ∉ pathEnd := by
  have hbase : ∀ c ∈ '/' :: restBase, c ∉ pathEnd := notMem_of_all_free (by decide)
  intro c hc
  rcases List.mem_append.mp (show c ∈ ('/' :: restBase) ++ op.name.toList from hc) with hc | hc
  · exact hbase c hc
  · have halpha := op.name_alpha.2 c hc
    rintro hend
    simp only [pathEnd, List.mem_cons, List.not_mem_nil, or_false] at hend
    rcases hend with rfl | rfl <;> exact absurd halpha (by decide)

theorem Op.exists_route_eq (op : Op) : ∃ cs c, op.route = cs ++ [c] ∧ c ≠ '/' := by
  obtain ⟨hne, halpha⟩ := op.name_alpha
  obtain ⟨cs, c, h⟩ := (List.eq_nil_or_concat op.name.toList).resolve_left hne
  rw [List.concat_eq_append] at h
  refine ⟨'/' :: (restBase ++ cs), c, by rw [Op.route, h]; simp, ?_⟩
  rintro rfl
  exact absurd (halpha '/' (by simp [h])) (by decide)

/-- The URL of an operation is the service URL without trailing slashes, and
the route. -/
theorem opURL_eq {c : Client} {serviceURL : List Char} (h : c.serviceURL = String.ofList serviceURL)
    (op : Op) : c.opURL op = trimRight '/' serviceURL ++ op.route := by
  rw [Client.opURL, h, String.toList_ofList, Op.route, List.append_assoc, List.append_assoc,
    List.singleton_append]

/-- A path that ends in a route has nothing to trim. -/
theorem trimRight_route (p : List Char) (op : Op) :
    trimRight '/' (p ++ op.route) = p ++ op.route := by
  obtain ⟨cs, c, hcs, hc⟩ := op.exists_route_eq
  rw [hcs, ← List.append_assoc, trimRight_append_cons hc, trimRight_nil]

section Text

variable (u : Hierarchical) (op : Op)

/-- The route behind a path, with no query and no fragment. -/
def routeOnPath : Hierarchical where
  scheme := u.scheme
  authority := u.authority
  path := trimRight '/' u.path ++ op.route
  tail := []
  scheme_ne_nil := u.scheme_ne_nil
  scheme_free := u.scheme_free
  authority_free := u.authority_free
  path_ends := by
    obtain ⟨rest, hrest⟩ := trimRight_isPrefixOf '/' u.path
    intro c hc
    cases h : trimRight '/' u.path with
    | nil =>
        rw [h] at hc
        exact List.mem_singleton.mpr (Option.some.inj hc).symm
    | cons d p =>
        rw [h] at hc hrest
        exact u.path_ends c (hrest ▸ hc)
  path_free := by
    intro c hc
    rcases List.mem_append.mp hc with hc | hc
    · exact u.path_free c ((trimRight_isPrefixOf '/' u.path).subset hc)
    · exact op.route_free c hc
  tail_ends := nofun

/-- The route behind a query or a fragment. -/
def routeOnTail {m : Char} {tail : List Char} (htail : u.tail = m :: tail) : Hierarchical where
  scheme := u.scheme
  authority := u.authority
  path := u.path
  tail := m :: (trimRight '/' tail ++ op.route)
  scheme_ne_nil := u.scheme_ne_nil
  scheme_free := u.scheme_free
  authority_free := u.authority_free
  path_ends := u.path_ends
  path_free := u.path_free
  tail_ends := fun c hc => u.tail_ends c (htail ▸ hc)

variable {u}

/-- On a URL without a query, the route goes on the path. -/
theorem text_routeOnPath (hauth : u.authority ≠ []) (htail : u.tail = []) :
    trimRight '/' u.text ++ op.route = (routeOnPath u op).text := by
  obtain ⟨as, a, has⟩ := (List.eq_nil_or_concat u.authority).resolve_left hauth
  have ha : a ≠ '/' := by
    rintro rfl
    exact u.authority_free '/' (by simp [has]) (by simp [authorityEnd])
  have htrim := trimRight_append_cons ha (u.scheme ++ ':' :: '/' :: '/' :: as) u.path
  simp [routeOnPath, Hierarchical.text, htail, has] at htrim ⊢
  simp [htrim]

/-- On any other, it goes on the query or the fragment. -/
theorem text_routeOnTail {m : Char} {tail : List Char} (htail : u.tail = m :: tail) :
    trimRight '/' u.text ++ op.route = (routeOnTail u op htail).text := by
  have hm : m ≠ '/' := by
    rintro rfl
    have := u.tail_ends '/' (by simp [htail])
    simp [pathEnd] at this
  have htrim := trimRight_append_cons hm
    (u.scheme ++ ':' :: '/' :: '/' :: (u.authority ++ u.path)) tail
  simp [routeOnTail, Hierarchical.text, htail] at htrim ⊢
  simp [htrim]

/-- The query and the fragment begin with their delimiter. -/
theorem tail_eq_nil_iff (hscheme : u.scheme = URL.https) :
    u.tail = [] ↔ '?' ∉ u.text ∧ '#' ∉ u.text := by
  constructor
  · intro htail
    have hfront : ∀ c ∈ URL.https ++ [':', '/', '/'], c ∉ pathEnd := notMem_of_all_free (by decide)
    have hin : ∀ d ∈ pathEnd, d ∉ u.text := by
      intro d hd hmem
      have hsplit : u.text = (URL.https ++ [':', '/', '/']) ++ (u.authority ++ u.path) := by
        simp [Hierarchical.text, hscheme, htail]
      rw [hsplit] at hmem
      rcases List.mem_append.mp hmem with h | h
      · exact hfront d h hd
      · rcases List.mem_append.mp h with h | h
        · exact u.authority_free d h (List.mem_cons_of_mem _ hd)
        · exact u.path_free d h hd
    exact ⟨hin '?' (by decide), hin '#' (by decide)⟩
  · rintro ⟨hq, hf⟩
    cases htail : u.tail with
    | nil => rfl
    | cons m tail =>
        have hm : m ∈ pathEnd := u.tail_ends m (by simp [htail])
        have hmem : m ∈ u.text := by simp [Hierarchical.text, htail]
        simp only [pathEnd, List.mem_cons, List.not_mem_nil, or_false] at hm
        rcases hm with rfl | rfl
        · exact absurd hmem hq
        · exact absurd hmem hf

end Text

/-- **Operation routing**: the URL of an operation has the service URL's
scheme and authority and its path followed by the route exactly when the
service URL has neither a query nor a fragment. -/
theorem opURL_routed_iff {raw : List UInt8} {cfg : Config}
    (hload : loadBytes (fun s => (URL.parseRequestURI s).isSome) raw = .ok cfg)
    {appendCertsFromPEM : List UInt8 → Bool} {fsID authToken : String} {caCertPEM : List UInt8}
    {opts : ClientOptions} {c : Client}
    (hnew : newWithOptions appendCertsFromPEM cfg.serviceURL fsID authToken caCertPEM opts = .ok c)
    (op : Op) :
    Routed cfg.serviceURL (c.opURL op) op ↔ '?' ∉ cfg.serviceURL ∧ '#' ∉ cfg.serviceURL := by
  obtain ⟨hc, v, hparse, hhost⟩ := of_newWithOptions hnew
  obtain ⟨rest, hrest⟩ := (loadBytes_ok_iff.mp hload).2.serviceURL.1
  obtain ⟨u, hscheme, hauth, htext⟩ :=
    exists_hierarchical (by decide : URL.https ≠ []) (notMem_of_all_free (by decide)) rest
  have hurl : cfg.serviceURL = u.text := by
    have hprefix : "https://".toList = URL.https ++ [':', '/', '/'] := by decide
    rw [htext, ← hrest, hprefix, List.append_assoc]
    rfl
  have hne : u.authority ≠ [] := by
    intro h
    rw [hurl, htext] at hparse
    have hempty := (URL.parseReference_https hparse).2
    rw [← hauth, h, URL.parseAuthority_nil] at hempty
    exact hhost (Option.some.inj hempty).symm
  rw [opURL_eq hc, hurl, ← tail_eq_nil_iff hscheme, Routed, ← op.route_eq]
  constructor
  · rintro ⟨-, -, hpath⟩
    cases htail : u.tail with
    | nil => rfl
    | cons m tail =>
        -- the path is the service URL's own, which would have to end in the route
        rw [text_routeOnTail op htail, Hierarchical.split_text, Hierarchical.split_text] at hpath
        change u.path = trimRight '/' u.path ++ op.route at hpath
        have hsame := trimRight_route (trimRight '/' u.path) op
        rw [← hpath] at hsame
        rw [hsame] at hpath
        exact absurd (List.self_eq_append_right.mp hpath) (List.cons_ne_nil _ _)
  · intro htail
    rw [text_routeOnPath op hne htail, Hierarchical.split_text, Hierarchical.split_text]
    exact ⟨rfl, rfl, rfl⟩

/-! ## two configs -/

/-- A config without mounts. -/
def bareDocument (serviceURL : String) : List UInt8 :=
  ("\x7b\"schema_version\":\"v1\",".toList ++ "\"service_url\":\"".toList ++ serviceURL.toList ++
    "\",\"ca_cert_pem\":\"pem\",\"mounts\":[]\x7d".toList).map fun c => UInt8.ofNat c.toNat

def bareConfig (serviceURL : String) : Config :=
  ⟨"v1".toList, serviceURL.toList, "pem".toList, some ⟨[], []⟩, none⟩

/-- The client of a service URL, with the defaults. -/
def bareClient (serviceURL : String) : Client :=
  ⟨serviceURL, "f", "t", defaultMessageCeiling, defaultMaxDownloadBytes, defaultMaxListPages⟩

/-- Both validators accept the URL. -/
def Accepted (serviceURL : String) : Prop :=
  loadBytes (fun s => (URL.parseRequestURI s).isSome) (bareDocument serviceURL) =
      .ok (bareConfig serviceURL) ∧
    newWithOptions (fun _ => true) serviceURL.toList "f" "t" [112] ⟨0, 0⟩ =
      .ok (bareClient serviceURL)

theorem accepted_slashes : Accepted "https://h:80/a//" :=
  ⟨ok_of_toOption (by decide +kernel), ok_of_toOption (by decide +kernel)⟩

theorem accepted_query : Accepted "https://h/a?q" :=
  ⟨ok_of_toOption (by decide +kernel), ok_of_toOption (by decide +kernel)⟩

/-- Repeated slashes at the end of the path are dropped. -/
theorem opURL_routed_slashes :
    Accepted "https://h:80/a//" ∧
      Routed "https://h:80/a//".toList ((bareClient "https://h:80/a//").opURL .copyFile)
        .copyFile :=
  ⟨accepted_slashes, (opURL_routed_iff accepted_slashes.1 accepted_slashes.2 .copyFile).mpr
    (by decide)⟩

/-- The route goes into the query. -/
theorem opURL_in_query :
    Accepted "https://h/a?q" ∧
      (bareClient "https://h/a?q").opURL .copyFile =
        "https://h/a?q/v1/filestore/fs/copyFile".toList ∧
      ¬ Routed "https://h/a?q".toList ((bareClient "https://h/a?q").opURL .copyFile) .copyFile :=
  ⟨accepted_query, by decide +kernel, by decide +kernel⟩

end OcuFilestore.Brokerrpc
