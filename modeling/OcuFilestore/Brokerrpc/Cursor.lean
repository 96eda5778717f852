import OcuFilestore.Brokerrpc.Client
import OcuFilestore.Go.Sha256

/-!
# OcuFilestore.Brokerrpc.Cursor

Paged listing (`internal/brokerrpc/cursor.go`): the page guard that bounds
the loop, the streaming listing, and the buffering wrapper over it.

The broker is a sequence of page replies.  A listing completes at page `k`
(`CompletesAt`) when pages `1..k` arrive, page `k` is the first without a
cursor, the cursors before it are pairwise distinct, and no entry of them
makes the callback fail.  `listDirectoryStream_paging` says that this is
exactly when the listing succeeds, and what goes over the wire and to the
callback in every case.
-/

namespace OcuFilestore.Brokerrpc

/-- The digest a cursor is remembered by. -/
def cursorDigest (cursor : String) : List UInt8 := sum256 cursor.toUTF8.toList

/-- The state that bounds one listing: pages accounted for, and the digests
of the cursors seen. -/
structure PageGuard where
  fn : String
  maxPages : Nat
  pages : Nat
  seen : List (List UInt8)

def newPageGuard (fn : String) (maxPages : Nat) : PageGuard := ⟨fn, maxPages, 0, []⟩

/-- Account for one page that announced a next one. -/
def PageGuard.admitPage (g : PageGuard) (cursor : String) : Except Err PageGuard :=
  if g.pages + 1 ≥ g.maxPages then
    .error (.text [.lit "brokerrpc: ", .str g.fn, .lit ": pagination exceeded the ",
      .int g.maxPages, .lit "-page ceiling — aborting unbounded listing"])
  else if cursorDigest cursor ∈ g.seen then
    .error (.text [.lit "brokerrpc: ", .str g.fn, .lit ": cursor did not advance (",
      .quoted cursor.toList, .lit ") — aborting pagination cycle"])
  else .ok { g with pages := g.pages + 1, seen := cursorDigest cursor :: g.seen }

/-- A page is admitted below the cap, with a cursor not seen before. -/
theorem PageGuard.admitPage_ok {g g' : PageGuard} {cursor : String}
    (h : g.admitPage cursor = .ok g') :
    g.pages + 1 < g.maxPages ∧ cursorDigest cursor ∉ g.seen ∧
      g' = { g with pages := g.pages + 1, seen := cursorDigest cursor :: g.seen } := by
  unfold admitPage at h
  split at h
  · cases h
  · split at h
    · cases h
    · next hp hs => exact ⟨by omega, hs, (Except.ok.inj h).symm⟩

/-- A page is refused at the cap, or for a cursor seen before. -/
theorem PageGuard.admitPage_error {g : PageGuard} {cursor : String} {e : Err}
    (h : g.admitPage cursor = .error e) :
    g.maxPages ≤ g.pages + 1 ∨ cursorDigest cursor ∈ g.seen := by
  unfold admitPage at h
  split at h
  · next hp => exact Or.inl hp
  · split at h
    · next hs => exact Or.inr hs
    · cases h

section Stream

variable {σ : Type}

/-- Hand the entries of a page to the callback; its first error stops. -/
def yieldAll (yield : σ → ListDirEntry → σ × Option Err) :
    σ → List ListDirEntry → σ × Option Err
  | s, [] => (s, none)
  | s, e :: es =>
      match yield s e with
      | (s', some err) => (s', some err)
      | (s', none) => yieldAll yield s' es

/-- The callback of the buffering listing. -/
def collect (all : List ListDirEntry) (e : ListDirEntry) : List ListDirEntry × Option Err :=
  (all ++ [e], none)

namespace Client

/-- The paging loop.  The callback's state is threaded through. -/
def streamLoop (c : Client) (fsID : String) (am : AuthorizationMetadata) (path : Path)
    (yield : σ → ListDirEntry → σ × Option Err) (guard : PageGuard) (cursor : String) (s : σ) :
    WireProg (σ × Option Err) :=
  .op ⟨c, .listDirectory ⟨fsID, path, am, cursor⟩⟩ fun x =>
    match callResult .listDirectory x with
    | .error e => .ret (s, some (.wrap [.lit "brokerrpc: ListDirectoryStream: "] e []))
    | .ok resp =>
        match yieldAll yield s resp.entries with
        | (s', some e) => .ret (s', some e)
        | (s', none) =>
            if resp.cursor = "" then .ret (s', none)
            else
              match _hg : guard.admitPage resp.cursor with
              | .error e => .ret (s', some e)
              | .ok guard' => streamLoop c fsID am path yield guard' resp.cursor s'
termination_by guard.maxPages - guard.pages
decreasing_by
  -- an admitted page leaves room under the ceiling
  obtain ⟨hlt, -, rfl⟩ := PageGuard.admitPage_ok _hg
  dsimp only
  omega

/-- One round of the loop. -/
theorem streamLoop_eq (c : Client) (fsID : String) (am : AuthorizationMetadata) (path : Path)
    (yield : σ → ListDirEntry → σ × Option Err) (guard : PageGuard) (cursor : String) (s : σ) :
    c.streamLoop fsID am path yield guard cursor s =
      .op ⟨c, .listDirectory ⟨fsID, path, am, cursor⟩⟩ fun x =>
        match callResult .listDirectory x with
        | .error e => .ret (s, some (.wrap [.lit "brokerrpc: ListDirectoryStream: "] e []))
        | .ok resp =>
            match yieldAll yield s resp.entries with
            | (s', some e) => .ret (s', some e)
            | (s', none) =>
                if resp.cursor = "" then .ret (s', none)
                else
                  match guard.admitPage resp.cursor with
                  | .error e => .ret (s', some e)
                  | .ok guard' => c.streamLoop fsID am path yield guard' resp.cursor s' := by
  rw [streamLoop]
  congr 1
  funext x
  split
  · rfl
  · split
    · rfl
    · split
      · rfl
      · split <;> simp [*]

/-- Recursive listing, page by page: `yield` sees each entry as its page
arrives. -/
def listDirectoryStream (c : Client) (path : Path)
    (yield : σ → ListDirEntry → σ × Option Err) (s : σ) : WireProg (σ × Option Err) :=
  c.stamped .listDirectory (fun e => (s, some e)) fun fsID am =>
    c.streamLoop fsID am path yield (newPageGuard "ListDirectoryStream" c.maxListPages) "" s

/-- The buffering wrapper: all entries, or the error and none of them. -/
def listDirectoryAll (c : Client) (path : Path) : WireProg (Except Err (List ListDirEntry)) := do
  let (all, err) ← c.listDirectoryStream path collect []
  match err with
  | some e => return .error e
  | none => return .ok all

end Client

/-! ## every page request, and what becomes of a refusal -/

/-- What each entry keeps, a page keeps. -/
theorem yieldAll_inv {yield : σ → ListDirEntry → σ × Option Err} {Inv : σ → Prop}
    (es : List ListDirEntry) (hyield : ∀ e ∈ es, ∀ s, Inv s → Inv (yield s e).1) {s : σ}
    (hs : Inv s) : Inv (yieldAll yield s es).1 := by
  induction es generalizing s with
  | nil => exact hs
  | cons e es ih =>
      have h := hyield e List.mem_cons_self s hs
      have hrest : ∀ e' ∈ es, ∀ s, Inv s → Inv (yield s e').1 :=
        fun e' he' => hyield e' (List.mem_cons_of_mem _ he')
      unfold yieldAll
      split
      · next hy => rwa [hy] at h
      · next hy => exact ih hrest (by rwa [hy] at h)

namespace Client

/-- A listing posts disciplined page requests only, and an invariant of the
callback holds of its state at the end. -/
theorem always_listDirectoryStream {c : Client} {path : Path}
    {yield : σ → ListDirEntry → σ × Option Err} {Inv : σ → Prop}
    (hyield : ∀ s e, Inv s → Inv (yield s e).1) {s : σ} (hs : Inv s)
    (hp : SlashPath.Canonical path) :
    (c.listDirectoryStream path yield s).Always (Posts c .listDirectory) (fun r => Inv r.1) := by
  rw [listDirectoryStream, stamped_eq]
  generalize newPageGuard "ListDirectoryStream" c.maxListPages = g, "" = cursor
  -- on the pages left under the ceiling
  induction hn : g.maxPages - g.pages using Nat.strongRecOn generalizing g cursor s with
  | ind n ih =>
      rw [streamLoop_eq]
      refine ⟨posts_of_stamped rfl rfl rfl (by simpa [Request.paths] using hp), fun x => ?_⟩
      dsimp only
      split
      · exact hs
      · next resp _ =>
          have hinv := yieldAll_inv resp.entries (fun e _ s => hyield s e) hs
          split
          · next hy => rwa [hy] at hinv
          · next hy =>
              rw [hy] at hinv
              split
              · exact hinv
              · split
                · exact hinv
                · next hg =>
                    obtain ⟨hlt, -, rfl⟩ := PageGuard.admitPage_ok hg
                    exact ih _ (by dsimp only; omega) hinv _ _ rfl

/-- A refused page ends the listing with the page's error. -/
theorem surfaces_listDirectoryStream {c : Client} {path : Path}
    {yield : σ → ListDirEntry → σ × Option Err} {s : σ} :
    Surfaces (fun op resp (r : σ × Option Err) => op = .listDirectory ∧
        r.2 = some (.wrap [.lit "brokerrpc: ListDirectoryStream: "] resp.err []))
      (c.listDirectoryStream path yield s) := by
  rw [listDirectoryStream, stamped_eq]
  generalize newPageGuard "ListDirectoryStream" c.maxListPages = g, "" = cursor
  induction hn : g.maxPages - g.pages using Nat.strongRecOn generalizing g cursor s with
  | ind n ih =>
      rw [streamLoop_eq]
      refine fun x => ⟨fun hb => ?_, ?_⟩
      · obtain ⟨resp, hr⟩ := Option.isSome_iff_exists.mp hb
        have hcall : callResult .listDirectory x = .error resp.err := Exchange.result_refusal hr
        simp only [hcall]
        intro resp' hr'
        rw [hr] at hr'
        cases hr'
        exact ⟨rfl, rfl⟩
      · dsimp only
        split
        · trivial
        · split
          · trivial
          · split
            · trivial
            · split
              · trivial
              · next hg =>
                  obtain ⟨hlt, -, rfl⟩ := PageGuard.admitPage_ok hg
                  exact ih _ (by dsimp only; omega) _ _ rfl

end Client

/-! ## the broker as a sequence of pages -/

/-- What the broker answers to the first, second, ... page request. -/
abbrev PageReplies := Nat → Exchange (Except Err ListDirectoryResponse)

/-- The environment that serves these pages; a listing asks for nothing else. -/
def answerPages (rs : PageReplies) (i : Nat) : (w : Wire) → w.Reply
  | ⟨_, .listDirectory _⟩ => rs i
  | ⟨_, .readMetadata _⟩ => .failed (.text [])
  | ⟨_, .ack _⟩ => .failed (.text [])
  | ⟨_, .fileUpload _⟩ => ⟨.failed (.text []), none⟩
  | ⟨_, .fileDownload _⟩ => .failed (.text [])

namespace PageReplies

/-- Page `i` (counted from 0) as the client sees it. -/
def page (rs : PageReplies) (i : Nat) : Except Err ListDirectoryResponse :=
  callResult .listDirectory (rs i)

/-- The cursor of page `i`, empty when the call failed. -/
def cursor (rs : PageReplies) (i : Nat) : String :=
  match rs.page i with
  | .ok resp => resp.cursor
  | .error _ => ""

def pageEntries (rs : PageReplies) (i : Nat) : List ListDirEntry :=
  match rs.page i with
  | .ok resp => resp.entries
  | .error _ => []

/-- The entries of the first `k` pages, in order. -/
def entries (rs : PageReplies) : Nat → List ListDirEntry
  | 0 => []
  | k + 1 => rs.entries k ++ rs.pageEntries k

/-- The cursor sent for page `i`: none for the first page, then the one of
the page before. -/
def sentCursor (rs : PageReplies) : Nat → String
  | 0 => ""
  | i + 1 => rs.cursor i

/-- SHA-256 tells the cursors of the first `m` pages apart. -/
def NoCollision (rs : PageReplies) (m : Nat) : Prop :=
  ∀ i < m, ∀ j < m, cursorDigest (rs.cursor i) = cursorDigest (rs.cursor j) →
    rs.cursor i = rs.cursor j

/-- The listing completes at page `k`, counted from 1, under the ceiling
`maxPages`. -/
structure CompletesAt (rs : PageReplies) (yield : σ → ListDirEntry → σ × Option Err) (s : σ)
    (maxPages k : Nat) : Prop where
  pos : 1 ≤ k
  le : k ≤ maxPages
  arrived : ∀ i < k, ∃ resp, rs.page i = .ok resp
  last : rs.cursor (k - 1) = ""
  more : ∀ i, i + 1 < k → rs.cursor i ≠ ""
  distinct : ∀ i j, i < j → j + 1 < k → rs.cursor i ≠ rs.cursor j
  yields : (yieldAll yield s (rs.entries k)).2 = none

end PageReplies

/-- The request for page `i`. -/
def pageRequest (c : Client) (path : Path) (rs : PageReplies) (i : Nat) : Wire :=
  ⟨c, .listDirectory ⟨c.fsID, path, Client.authMeta .listDirectory, rs.sentCursor i⟩⟩

/-- What the listing makes of its callback: the callback has been called on
`called`, in order, and that is what its state `s'` has seen. -/
def Called (yield : σ → ListDirEntry → σ × Option Err) (s : σ) (called : List ListDirEntry)
    (s' : σ) : Prop :=
  s' = called.foldl (fun s e => (yield s e).1) s

/-- The outcome of a listing that fetched `m` pages. -/
structure Listed (rs : PageReplies) (yield : σ → ListDirEntry → σ × Option Err) (s : σ)
    (maxPages m : Nat) (r : σ × Option Err) : Prop where
  success : r.2 = none ↔ ∃ k, rs.CompletesAt yield s maxPages k
  called : ∃ called, Called yield s called r.1 ∧ called <+: rs.entries m ∧
    ∀ k, rs.CompletesAt yield s maxPages k → called = rs.entries k

/-! ## the callback -/

/-- Two pages that are taken in full are taken one after the other. -/
theorem yieldAll_append (yield : σ → ListDirEntry → σ × Option Err) (s : σ)
    (es es' : List ListDirEntry) (h : (yieldAll yield s es).2 = none) :
    yieldAll yield s (es ++ es') = yieldAll yield (yieldAll yield s es).1 es' := by
  induction es generalizing s with
  | nil => rfl
  | cons e es ih =>
      simp only [yieldAll, List.cons_append] at h ⊢
      split at h
      · cases h
      · exact ih _ h

/-- An error on a run of entries stays one however the run goes on. -/
theorem yieldAll_append_error (yield : σ → ListDirEntry → σ × Option Err) (s : σ)
    (es es' : List ListDirEntry) (h : (yieldAll yield s es).2 ≠ none) :
    (yieldAll yield s (es ++ es')).2 ≠ none := by
  induction es generalizing s with
  | nil => exact absurd rfl h
  | cons e es ih =>
      simp only [yieldAll, List.cons_append] at h ⊢
      split at h
      · exact h
      · exact ih _ h

/-- The callback is called on a prefix of the entries, on all of them when
it does not fail. -/
theorem yieldAll_called (yield : σ → ListDirEntry → σ × Option Err) (s : σ)
    (es : List ListDirEntry) :
    ∃ called, Called yield s called (yieldAll yield s es).1 ∧ called <+: es ∧
      ((yieldAll yield s es).2 = none → called = es) := by
  induction es generalizing s with
  | nil => exact ⟨[], rfl, List.prefix_rfl, fun _ => rfl⟩
  | cons e es ih =>
      cases hy : yield s e with
      | mk s' err =>
          cases err with
          | some err => exact ⟨[e], by simp [yieldAll, Called, hy], by simp, by simp [yieldAll, hy]⟩
          | none =>
              obtain ⟨called, hc, hp, hall⟩ := ih s'
              refine ⟨e :: called, ?_, by simpa using hp, ?_⟩
              · simpa [yieldAll, Called, hy] using hc
              · simpa [yieldAll, hy] using hall

/-! ## the loop -/

namespace PageReplies

theorem cursor_of_ok {rs : PageReplies} {i : Nat} {resp : ListDirectoryResponse}
    (h : rs.page i = .ok resp) : rs.cursor i = resp.cursor := by
  unfold cursor
  rw [h]

theorem entries_succ_of_ok {rs : PageReplies} {i : Nat} {resp : ListDirectoryResponse}
    (h : rs.page i = .ok resp) : rs.entries (i + 1) = rs.entries i ++ resp.entries := by
  simp only [entries, pageEntries, h]

/-- More pages only add entries. -/
theorem entries_mono (rs : PageReplies) {m k : Nat} (h : m ≤ k) :
    rs.entries m <+: rs.entries k := by
  induction h with
  | refl => exact List.prefix_rfl
  | step _ ih => exact ih.trans (List.prefix_append _ _)

end PageReplies

/-- The state of the loop when page `i` is about to be fetched. -/
structure Fetching (rs : PageReplies) (yield : σ → ListDirEntry → σ × Option Err) (s₀ : σ)
    (maxPages i : Nat) (g : PageGuard) (s : σ) : Prop where
  maxPages_eq : g.maxPages = maxPages
  pages_eq : g.pages = i
  room : i < maxPages
  seen : ∀ d, d ∈ g.seen ↔ ∃ j < i, cursorDigest (rs.cursor j) = d
  arrived : ∀ j < i, ∃ resp, rs.page j = .ok resp
  more : ∀ j < i, rs.cursor j ≠ ""
  distinct : ∀ j k, j < k → k < i → rs.cursor j ≠ rs.cursor k
  yielded : yieldAll yield s₀ (rs.entries i) = (s, none)

namespace Fetching

variable {rs : PageReplies} {yield : σ → ListDirEntry → σ × Option Err} {s₀ s : σ}
  {maxPages i : Nat} {g : PageGuard} {resp : ListDirectoryResponse}

/-- No page already fetched can be the last one. -/
theorem lt_of_completesAt (inv : Fetching rs yield s₀ maxPages i g s) {k : Nat}
    (hk : rs.CompletesAt yield s₀ maxPages k) : i < k := by
  refine Nat.lt_of_not_le fun hle => ?_
  have hpos := hk.pos
  exact inv.more (k - 1) (by omega) hk.last

/-- The callback's state after page `i`, seen from the start of the listing. -/
theorem yieldAll_succ (inv : Fetching rs yield s₀ maxPages i g s) (hp : rs.page i = .ok resp) :
    yieldAll yield s₀ (rs.entries (i + 1)) = yieldAll yield s resp.entries := by
  rw [PageReplies.entries_succ_of_ok hp, yieldAll_append _ _ _ _ (by rw [inv.yielded]),
    inv.yielded]

/-- A page without a cursor completes the listing. -/
theorem completesAt (inv : Fetching rs yield s₀ maxPages i g s) (hp : rs.page i = .ok resp)
    (hy : (yieldAll yield s resp.entries).2 = none) (hc : resp.cursor = "") :
    rs.CompletesAt yield s₀ maxPages (i + 1) where
  pos := by omega
  le := inv.room
  arrived j hj := by
    rcases Nat.lt_succ_iff_lt_or_eq.mp hj with hj | rfl
    · exact inv.arrived j hj
    · exact ⟨resp, hp⟩
  last := (PageReplies.cursor_of_ok hp).trans hc
  more j hj := inv.more j (by omega)
  distinct j k hjk hk := inv.distinct j k hjk (by omega)
  yields := by rw [inv.yieldAll_succ hp]; exact hy

/-- An admitted page leads to the next round of the loop. -/
theorem next (inv : Fetching rs yield s₀ maxPages i g s) (hp : rs.page i = .ok resp)
    (hy : (yieldAll yield s resp.entries).2 = none) (hc : resp.cursor ≠ "") {g' : PageGuard}
    (hg : g.admitPage resp.cursor = .ok g') :
    Fetching rs yield s₀ maxPages (i + 1) g' (yieldAll yield s resp.entries).1 := by
  have hcur := PageReplies.cursor_of_ok hp
  obtain ⟨hroom, hnew, rfl⟩ := PageGuard.admitPage_ok hg
  rw [← hcur] at hnew hc
  have hfresh : ∀ j < i, rs.cursor j ≠ rs.cursor i := fun j hj heq =>
    hnew ((inv.seen _).mpr ⟨j, hj, by rw [heq]⟩)
  refine ⟨inv.maxPages_eq, by simp [inv.pages_eq], ?_, fun d => ?_, fun j hj => ?_, fun j hj => ?_,
    fun j k hjk hk => ?_, ?_⟩
  · rw [inv.maxPages_eq, inv.pages_eq] at hroom
    exact hroom
  · rw [List.mem_cons, inv.seen, ← hcur]
    constructor
    · rintro (rfl | ⟨j, hj, rfl⟩)
      · exact ⟨i, by omega, rfl⟩
      · exact ⟨j, by omega, rfl⟩
    · rintro ⟨j, hj, rfl⟩
      rcases Nat.lt_succ_iff_lt_or_eq.mp hj with hj | rfl
      · exact Or.inr ⟨j, hj, rfl⟩
      · exact Or.inl rfl
  · rcases Nat.lt_succ_iff_lt_or_eq.mp hj with hj | rfl
    · exact inv.arrived j hj
    · exact ⟨resp, hp⟩
  · rcases Nat.lt_succ_iff_lt_or_eq.mp hj with hj | rfl
    · exact inv.more j hj
    · exact hc
  · rcases Nat.lt_succ_iff_lt_or_eq.mp hk with hk | rfl
    · exact inv.distinct j k hjk hk
    · exact hfresh j hjk
  · rw [inv.yieldAll_succ hp, ← hy]

/-- The page guard refuses only listings that do not complete. -/
theorem not_completesAt_of_admitPage (inv : Fetching rs yield s₀ maxPages i g s)
    (hp : rs.page i = .ok resp) (hc : resp.cursor ≠ "") {e : Err}
    (hg : g.admitPage resp.cursor = .error e) (hcol : rs.NoCollision (i + 1)) {k : Nat} :
    ¬ rs.CompletesAt yield s₀ maxPages k := by
  intro hk
  have hcur := PageReplies.cursor_of_ok hp
  have hik := inv.lt_of_completesAt hk
  -- page `i` has a cursor, so the listing needs one more page
  have hne : k ≠ i + 1 := by
    rintro rfl
    exact hc (hcur.symm.trans hk.last)
  rcases PageGuard.admitPage_error hg with hceil | hdup
  · rw [inv.maxPages_eq, inv.pages_eq] at hceil
    have := hk.le
    omega
  · obtain ⟨j, hj, hd⟩ := (inv.seen _).mp hdup
    rw [← hcur] at hd
    exact hk.distinct j i hj (by omega) (hcol j (by omega) i (by omega) hd)

/-- The outcome of a listing that stops with page `i`. -/
theorem listed (inv : Fetching rs yield s₀ maxPages i g s) {r : σ × Option Err}
    (hsucc : r.2 = none → rs.CompletesAt yield s₀ maxPages (i + 1))
    (hfail : r.2 ≠ none → ∀ k, ¬ rs.CompletesAt yield s₀ maxPages k)
    (hr : r.1 = (yieldAll yield s₀ (rs.entries (i + 1))).1) :
    Listed rs yield s₀ maxPages (i + 1) r := by
  have hnone : ∀ k, rs.CompletesAt yield s₀ maxPages k → r.2 = none := by
    intro k hk
    cases h : r.2 with
    | none => rfl
    | some e => exact absurd hk (hfail (by rw [h]; exact Option.some_ne_none e) k)
  obtain ⟨called, hcalled, hpre, hall⟩ := yieldAll_called yield s₀ (rs.entries (i + 1))
  refine ⟨⟨fun h => ⟨i + 1, hsucc h⟩, fun ⟨k, hk⟩ => hnone k hk⟩, called,
    by rw [hr]; exact hcalled, hpre, fun k hk => ?_⟩
  -- the completing page is unique: it is the first one without a cursor
  have hi := hsucc (hnone k hk)
  have hk' : k = i + 1 := by
    have hlt := inv.lt_of_completesAt hk
    refine Nat.le_antisymm (Nat.le_of_not_lt fun hgt => ?_) hlt
    exact hk.more i hgt hi.last
  rw [hk']
  exact hall hi.yields

end Fetching

/-- From any point of the loop: the pages fetched from there on, and the
outcome of the whole listing. -/
theorem streamLoop_listed (c : Client) (path : Path) (rs : PageReplies)
    (yield : σ → ListDirEntry → σ × Option Err) (s₀ : σ) {maxPages i : Nat} {g : PageGuard} {s : σ}
    (inv : Fetching rs yield s₀ maxPages i g s) :
    ∃ m, i < m ∧ m ≤ maxPages ∧
      (Prog.runWith (answerPages rs) i (c.streamLoop c.fsID (Client.authMeta .listDirectory) path
          yield g (rs.sentCursor i) s)).1 = (List.range' i (m - i)).map (pageRequest c path rs) ∧
      (rs.NoCollision m → Listed rs yield s₀ maxPages m
        (Prog.runWith (answerPages rs) i (c.streamLoop c.fsID (Client.authMeta .listDirectory) path
          yield g (rs.sentCursor i) s)).2) := by
  -- on the pages left under the ceiling; the invariant carries the pages already fetched
  induction hn : maxPages - i generalizing i g s with
  | zero =>
      have := inv.room
      omega
  | succ n ih =>
      rw [Client.streamLoop_eq]
      simp only [Prog.runWith_op, answerPages]
      cases hp : callResult .listDirectory (rs i) with
      | error e =>
          refine ⟨i + 1, by omega, inv.room, ?_, fun _ => inv.listed ?_ ?_ ?_⟩
          · simp [pageRequest]
          · simp
          · intro _ k hk
            obtain ⟨resp, hok⟩ := hk.arrived i (inv.lt_of_completesAt hk)
            rw [PageReplies.page, hp] at hok
            cases hok
          · have hpage : rs.pageEntries i = [] := by
              simp only [PageReplies.pageEntries, PageReplies.page, hp]
            simp [PageReplies.entries, hpage, inv.yielded]
      | ok resp =>
          have hstate := inv.yieldAll_succ hp
          cases hy : yieldAll yield s resp.entries with
          | mk s' err =>
          rw [hy] at hstate
          cases err with
          | some e =>
              refine ⟨i + 1, by omega, inv.room, ?_, fun _ => inv.listed ?_ ?_ ?_⟩
              · simp [pageRequest, hy]
              · simp [hy]
              · intro _ k hk
                obtain ⟨es, hes⟩ := rs.entries_mono (inv.lt_of_completesAt hk)
                refine absurd hk.yields ?_
                rw [← hes]
                exact yieldAll_append_error _ _ _ _ (by simp [hstate])
              · simp [hy, hstate]
          | none =>
              have hy2 : (yieldAll yield s resp.entries).2 = none := by rw [hy]
              by_cases hc : resp.cursor = ""
              · refine ⟨i + 1, by omega, inv.room, ?_, fun _ => inv.listed ?_ ?_ ?_⟩
                · simp [pageRequest, hy, hc]
                · exact fun _ => inv.completesAt hp hy2 hc
                · simp [hy, hc]
                · simp [hy, hc, hstate]
              · cases hg : g.admitPage resp.cursor with
                | error e =>
                    refine ⟨i + 1, by omega, inv.room, ?_, fun hcol => inv.listed ?_ ?_ ?_⟩
                    · simp [pageRequest, hy, hc, hg]
                    · simp [hy, hc, hg]
                    · exact fun _ k => inv.not_completesAt_of_admitPage hp hc hg hcol
                    · simp [hy, hc, hg, hstate]
                | ok g' =>
                    have inv' := inv.next hp hy2 hc hg
                    rw [hy] at inv'
                    have hcur : rs.sentCursor (i + 1) = resp.cursor := PageReplies.cursor_of_ok hp
                    obtain ⟨m, hm, hle, hreqs, hlisted⟩ := ih inv' (by omega)
                    rw [hcur] at hreqs hlisted
                    refine ⟨m, by omega, hle, ?_, ?_⟩
                    · obtain ⟨d, rfl⟩ := Nat.exists_eq_add_of_lt hm
                      have hlen : i + 1 + d + 1 - i = (i + 1 + d + 1 - (i + 1)) + 1 := by omega
                      simp [hlen, List.range'_succ, hy, hc, hg, hreqs, pageRequest]
                    · simpa [hy, hc, hg] using hlisted

/-! ## whole listings -/

/-- The streaming listing against these pages: the requests and the result. -/
def streamRun (c : Client) (path : Path) (yield : σ → ListDirEntry → σ × Option Err) (s : σ)
    (rs : PageReplies) : List Wire × (σ × Option Err) :=
  Prog.runWith (answerPages rs) 0 (c.listDirectoryStream path yield s)

/-- The buffering listing against these pages. -/
def allRun (c : Client) (path : Path) (rs : PageReplies) :
    List Wire × Except Err (List ListDirEntry) :=
  Prog.runWith (answerPages rs) 0 (c.listDirectoryAll path)

/-- The stream asks for pages in order, at most up to the cap. -/
theorem streamRun_listed (c : Client) (path : Path) (yield : σ → ListDirEntry → σ × Option Err)
    (s : σ) (rs : PageReplies) (hN : 1 ≤ c.maxListPages) :
    (streamRun c path yield s rs).1.length ≤ c.maxListPages ∧
      (streamRun c path yield s rs).1 =
        (List.range (streamRun c path yield s rs).1.length).map (pageRequest c path rs) ∧
      (rs.NoCollision (streamRun c path yield s rs).1.length →
        Listed rs yield s c.maxListPages (streamRun c path yield s rs).1.length
          (streamRun c path yield s rs).2) := by
  have inv : Fetching rs yield s c.maxListPages 0
      (newPageGuard "ListDirectoryStream" c.maxListPages) s :=
    ⟨rfl, rfl, hN, by simp [newPageGuard], by simp, by simp, by simp, rfl⟩
  obtain ⟨m, -, hle, hreqs, hlisted⟩ := streamLoop_listed c path rs yield s inv
  have hlen : (streamRun c path yield s rs).1.length = m := by
    simp only [streamRun, Client.listDirectoryStream, Client.stamped_eq]
    exact (congrArg List.length hreqs).trans (by simp)
  rw [hlen, List.range_eq_range']
  simp only [streamRun, Client.listDirectoryStream, Client.stamped_eq]
  exact ⟨hle, hreqs, hlisted⟩

theorem foldl_collect (acc es : List ListDirEntry) :
    es.foldl (fun all e => (collect all e).1) acc = acc ++ es := by
  induction es generalizing acc with
  | nil => simp
  | cons e es ih => rw [List.foldl_cons, ih, collect, List.append_assoc]; rfl

/-- The buffering listing sends what the streaming one sends. -/
theorem allRun_eq (c : Client) (path : Path) (rs : PageReplies) :
    allRun c path rs = ((streamRun c path collect [] rs).1,
      match (streamRun c path collect [] rs).2 with
      | (_, some e) => .error e
      | (all, none) => .ok all) := by
  unfold allRun streamRun Client.listDirectoryAll
  rw [Prog.runWith_bind]
  obtain ⟨reqs, all, err⟩ := Prog.runWith (answerPages rs) 0 (c.listDirectoryStream path collect [])
  cases err <;> simp

/-- **Paged listing**: at most `maxListPages` requests, each with the cursor
of the page before; success exactly when the listing completes within the
ceiling; the callback sees a prefix of the pages' entries, and all of them
on success; the buffering listing returns the entries or none of them. -/
theorem listDirectory_paging (c : Client) (path : Path) (rs : PageReplies)
    (hN : 1 ≤ c.maxListPages) :
    (∀ {σ : Type} (yield : σ → ListDirEntry → σ × Option Err) (s : σ),
      (streamRun c path yield s rs).1.length ≤ c.maxListPages ∧
      (streamRun c path yield s rs).1 =
        (List.range (streamRun c path yield s rs).1.length).map (pageRequest c path rs) ∧
      (rs.NoCollision (streamRun c path yield s rs).1.length →
        Listed rs yield s c.maxListPages (streamRun c path yield s rs).1.length
          (streamRun c path yield s rs).2)) ∧
    (rs.NoCollision (allRun c path rs).1.length → ∀ all, (allRun c path rs).2 = .ok all ↔
      ∃ k, rs.CompletesAt collect [] c.maxListPages k ∧ all = rs.entries k) := by
  refine ⟨fun yield s => streamRun_listed c path yield s rs hN, ?_⟩
  rw [allRun_eq]
  intro hcol all
  obtain ⟨hsuccess, called, hcalled, -, hwhole⟩ :=
    (streamRun_listed c path collect [] rs hN).2.2 hcol
  rw [Called, foldl_collect, List.nil_append] at hcalled
  generalize (streamRun c path collect [] rs).2 = r at hsuccess hcalled ⊢
  obtain ⟨got, err⟩ := r
  cases err with
  | none =>
      obtain ⟨k, hk⟩ := hsuccess.mp rfl
      constructor
      · intro h
        cases h
        exact ⟨k, hk, hcalled.trans (hwhole k hk)⟩
      · rintro ⟨k', hk', rfl⟩
        rw [← hwhole k' hk', ← hcalled]
  | some e =>
      constructor
      · intro h
        cases h
      · rintro ⟨k, hk, -⟩
        cases hsuccess.mpr ⟨k, hk⟩

end Stream

/-! ## a listing of two pages -/

/-- A directory entry at this path. -/
def dirEntry (path : String) : ListDirEntry := ⟨none, some ⟨path.toList, "", ""⟩⟩

def okPage (entries : List ListDirEntry) (cursor : String) :
    Exchange (Except Err ListDirectoryResponse) :=
  .replied ⟨200, -1, .last [] (.sentinel .eof), ⟨"", none⟩⟩ (.ok ⟨entries, cursor⟩)

def twoPages : PageReplies
  | 0 => okPage [dirEntry "/a"] "next"
  | _ => okPage [dirEntry "/b"] ""

def threePageClient : Client := ⟨"https://filestore", "fs", "token", 1, 1, 3⟩

theorem noCollision_twoPages (m : Nat) : twoPages.NoCollision m := by
  have hd : cursorDigest "next" ≠ cursorDigest "" := by decide +kernel
  intro i _ j _ h
  match i, j with
  | 0, 0 => rfl
  | 0, j + 1 => exact absurd h hd
  | i + 1, 0 => exact absurd h.symm hd
  | i + 1, j + 1 => rfl

theorem listDirectory_paging_two_pages :
    1 ≤ threePageClient.maxListPages ∧
      (allRun threePageClient "/".toList twoPages).2 = .ok [dirEntry "/a", dirEntry "/b"] := by
  refine ⟨by decide, ?_⟩
  refine ((listDirectory_paging threePageClient "/".toList twoPages (by decide)).2
    (noCollision_twoPages _) _).mpr ⟨2, ?_, rfl⟩
  refine ⟨by decide, by decide, fun i hi => ?_, rfl, fun i hi => ?_, fun i j hij hj => ?_, rfl⟩
  · match i, hi with
    | 0, _ => exact ⟨_, rfl⟩
    | 1, _ => exact ⟨_, rfl⟩
  · obtain rfl : i = 0 := by omega
    decide
  · omega

end OcuFilestore.Brokerrpc
