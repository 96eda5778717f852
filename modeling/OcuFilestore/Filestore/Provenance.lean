import OcuFilestore.Filestore.Persistence

/-!
# OcuFilestore.Filestore.Provenance

Where the bytes of the filestore peer come from.  Whatever requests it serves,
a file of a scope is empty, or has what some file of the scope had at the
start, or what was uploaded into the scope; and what a download sends is a
stretch of such a content of the scope the request was admitted to.  No bytes
go from one scope to another, and none are made up.

A command moves contents around within its scope (`Command.file_next`); the
rest follows from the refinement.
-/

namespace OcuFilestore.Peer

open SlashPath

/-! ## one command -/

section Commands

variable {sc : Scope} {V : Vol} {x : Loc} {bs : List UInt8}

/-- What a command may leave at a place of its scope. -/
def Command.Yields (sc : Scope) (V : Vol) (cmd : Command) (bs : List UInt8) : Prop :=
  bs = [] ∨ (∃ y, sc.loc <+: y ∧ V.file y = some bs) ∨ ∃ params, cmd = .upload params bs

/-- A file after a put was there before, or is the one that was put. -/
theorem file_put_cases {y : Loc} {bs' : List UInt8} {hf : V.Free y}
    (h : (V.put y bs' hf).file x = some bs) : V.file x = some bs ∨ x = y ∧ bs' = bs := by
  rw [FileVolume.file_put] at h
  split at h
  · next heq => exact .inr ⟨heq, Option.some.inj h⟩
  · exact .inl h

/-- A file after a removal was there before. -/
theorem file_cut_some {y : Loc} {hy : y ≠ []} (h : (V.cut y hy).file x = some bs) :
    V.file x = some bs := by
  rw [FileVolume.file_cut] at h
  split at h
  · cases h
  · exact h

/-- A file after a transfer was there before, or comes from what the transfer
does. -/
theorem file_transfer_cases {dst : Loc} {overwrite : Bool} {op : Vol → Vol} {P : Prop}
    (hop : ∀ W : Vol, (∀ y, W.file y = V.file y) → (op W).file x = some bs → P)
    (hkeep : V.file x = some bs → P) (h : (transfer V overwrite dst op).file x = some bs) : P := by
  unfold transfer at h
  split at h
  · exact hkeep h
  · split at h
    · next hc => exact hop _ (fun y => FileVolume.file_mkdirs hc y) h
    · exact hkeep h

/-- A command leaves a file as it was, or it is in the scope of the command
and its content is from there. -/
theorem Command.file_next {cmd : Command} (h : (cmd.next sc V).file x = some bs) :
    V.file x = some bs ∨ sc.loc <+: x ∧ cmd.Yields sc V bs := by
  cases cmd with
  | createFile rel =>
      rw [Command.next] at h
      split at h
      · obtain hold | ⟨rfl, rfl⟩ := file_put_cases h
        · exact .inl hold
        · exact .inr ⟨prefix_locOf sc rel, .inl rfl⟩
      · exact .inl h
  | makeDirectory rel =>
      rw [Command.next] at h
      split at h
      · rw [FileVolume.file_mkdirs] at h
        exact .inl h
      · exact .inl h
  | removeFile rel | removeDirectory rel =>
      rw [Command.next] at h
      split at h
      · exact .inl (file_cut_some h)
      · exact .inl h
  | copyFile sd =>
      rw [Command.next] at h
      refine file_transfer_cases (fun W hW h => ?_) .inl h
      unfold copied at h
      split at h
      · exact .inl (hW x ▸ h)
      · split at h
        · obtain hold | ⟨rfl, hbs⟩ := file_put_cases h
          · exact .inl (hW x ▸ hold)
          · refine .inr ⟨prefix_locOf sc _, ?_⟩
            split at hbs
            · exact .inl hbs.symm
            · rw [hW] at hbs
              cases hfile : V.file (sc.locOf sd.source) with
              | none =>
                  rw [hfile] at hbs
                  exact .inl hbs.symm
              | some bs' =>
                  rw [hfile] at hbs
                  obtain rfl : bs' = bs := hbs
                  exact .inr (.inl ⟨_, prefix_locOf sc _, hfile⟩)
        · exact .inl (hW x ▸ h)
  | move sd =>
      rw [Command.next] at h
      refine file_transfer_cases (fun W hW h => ?_) .inl h
      unfold renamed at h
      split at h
      · have hnode := FileVolume.file_eq_some_iff.mp h
        rw [FileVolume.node_moved] at hnode
        split at hnode
        · next hpre =>
            have hfile : V.file _ = some bs :=
              (hW _).symm.trans (FileVolume.file_eq_some_iff.mpr hnode)
            refine .inr ⟨(prefix_locOf sc _).trans hpre, .inr (.inl ⟨_, ?_, hfile⟩)⟩
            exact (prefix_locOf sc _).trans (List.prefix_append _ _)
        · split at hnode
          · cases hnode
          · exact .inl ((hW x).symm.trans (FileVolume.file_eq_some_iff.mpr hnode))
      · exact .inl (hW x ▸ h)
  | upload params bytes =>
      rw [Command.next] at h
      split at h
      · exact .inl h
      · split at h
        · next hf =>
            have hput : (V.put _ bytes hf).file x = some bs := by
              split at h
              · exact h
              · exact file_cut_some h
            obtain hold | ⟨rfl, rfl⟩ := file_put_cases hput
            · exact .inl hold
            · exact .inr ⟨prefix_locOf sc _, .inr (.inr ⟨params, rfl⟩)⟩
        · exact .inl h
  | readFile rel | readMetadata rel | listDirectory rel | download uuid range => exact .inl h

/-- Bytes are sent of a file of the scope. -/
theorem Command.Answered.stream {cmd : Command} {n : Int} {bytes : List UInt8}
    (h : cmd.Answered sc V (.stream n bytes)) :
    ∃ y bs, sc.loc <+: y ∧ V.file y = some bs ∧ bytes <:+: bs := by
  have hnot {k : Int} (hk : 400 ≤ k) (h : (Response.stream n bytes).status = k) : False := by
    have h200 : (200 : Int) = k := h
    omega
  obtain hkind | herror := h.delivers
  · cases cmd with
    | createFile rel | readFile rel | upload params bytes | readMetadata rel =>
        obtain ⟨f, hf⟩ := hkind
        cases hf
    | listDirectory rel =>
        obtain ⟨es, hes⟩ := hkind
        cases hes
    | makeDirectory rel | removeFile rel | removeDirectory rel | copyFile sd | move sd =>
        cases hkind
    | download uuid range =>
        rw [Command.Answered] at h
        split at h
        · exact (hnot (by decide) h).elim
        · obtain ⟨ss, bs, hfile, -, heq⟩ | ⟨-, hnone⟩ := h
          · obtain ⟨n', bytes', heq', hbytes⟩ | hstatus := downloaded_cases bs range
            · cases heq.trans heq'
              exact ⟨_, bs, List.prefix_append _ _, hfile, hbytes⟩
            · rw [← heq] at hstatus
              exact (hnot (by decide) hstatus).elim
          · exact (hnot (by decide) hnone).elim
  · exact (hnot herror rfl).elim

end Commands

/-! ## runs -/

/-- Where a content of a scope may come from, when these requests were served
from this disk on. -/
inductive Origin (srv : Server) (sc : Scope) (t : Tree) (tr : List (Request × Response)) :
    List UInt8 → Prop
  | empty : Origin srv sc t tr []
  | initial {x : Loc} {bs : List UInt8} (hx : sc.loc <+: x) (h : t.content x = some bs) :
      Origin srv sc t tr bs
  | uploaded {e : Request × Response} {now : Time} {params : UploadParams} {bs : List UInt8}
      (he : e ∈ tr) (h : srv.asked now e.1 = .ok (sc, .ok (.upload params bs))) :
      Origin srv sc t tr bs

section Runs

variable {srv : Server} {ts : Loc} {sc : Scope} {s s' : Store} {q : Request} {resp : Response}
  {x : Loc} {bs : List UInt8} {tr tr' : List (Request × Response)}

/-- A file of a scope after one request: it was there, or its content is from
the scope. -/
theorem Server.Steps.file_cases (hroots : srv.Rooted) (hsc : sc ∈ srv.scopes)
    (hx : sc.loc <+: x) (h : srv.Steps q s resp s') (hfile : s'.volume.file x = some bs) :
    s.volume.file x = some bs ∨ ∃ now cmd, srv.asked now q = .ok (sc, .ok cmd) ∧
      cmd.Yields sc s.volume bs := by
  obtain ⟨now, hadmits⟩ := h
  cases hasked : srv.asked now q with
  | error status =>
      rw [hasked] at hadmits
      exact .inl (hadmits.2 ▸ hfile)
  | ok r =>
      obtain ⟨sc', cmd⟩ := r
      rw [hasked] at hadmits
      obtain ⟨-, -, rfl⟩ | ⟨-, -, rfl⟩ | ⟨-, hexec⟩ := hadmits
      · exact .inl hfile
      · rw [volume_counted] at hfile
        exact .inl hfile
      · cases cmd with
        | error status =>
            rw [hexec.2, volume_counted] at hfile
            exact .inl hfile
        | ok cmd =>
            rw [hexec.2] at hfile
            dsimp only at hfile
            rw [volume_counted] at hfile
            refine (Command.file_next hfile).imp id fun ⟨hx', hyields⟩ => ?_
            by_cases heq : sc = sc'
            · subst heq
              exact ⟨now, cmd, hasked, hyields⟩
            · have hapart := hroots.apart sc hsc sc' (asked_ok hasked).1 heq
              exact ((List.prefix_or_prefix_of_prefix hx hx').elim hapart.1 hapart.2).elim

/-- A content that has an origin has one in every longer run. -/
theorem Origin.mono {t : Tree} (h : Origin srv sc t tr bs) (hsub : tr ⊆ tr') :
    Origin srv sc t tr' bs := by
  cases h with
  | empty => exact .empty
  | initial hx h => exact .initial hx h
  | uploaded he h => exact .uploaded (hsub he) h

/-- Every file of a scope has a content that is the scope's own. -/
theorem Server.StepsAll.origin (hroots : srv.Rooted) (hsc : sc ∈ srv.scopes) {t : Tree}
    (h : srv.StepsAll s tr s') (ht : t.Holds s.volume) (hx : sc.loc <+: x)
    (hfile : s'.volume.file x = some bs) : Origin srv sc t tr bs := by
  -- the requests served so far are kept apart, so that every prefix of the run has its origins
  suffices hall : ∀ past, (∀ y bs, sc.loc <+: y → s.volume.file y = some bs →
      Origin srv sc t past bs) → Origin srv sc t (past ++ tr) bs by
    refine hall [] fun y bs hy hfile => ?_
    rw [← ht.content] at hfile
    exact .initial hy hfile
  clear ht
  induction h with
  | nil s =>
      intro past hpast
      exact (hpast x bs hx hfile).mono (List.subset_append_left _ _)
  | @cons s s₁ s' q resp tr hstep _ ih =>
      intro past hpast
      have hsub : past ⊆ past ++ [(q, resp)] := List.subset_append_left _ _
      rw [List.append_cons]
      refine ih hfile _ fun y bs hy hfile => ?_
      obtain hold | ⟨now, cmd, hasked, rfl | ⟨z, hz, hold⟩ | ⟨params, rfl⟩⟩ :=
        hstep.file_cases hroots hsc hy hfile
      · exact (hpast y bs hy hold).mono hsub
      · exact .empty
      · exact (hpast z bs hz hold).mono hsub
      · exact .uploaded (List.mem_append_right _ (List.mem_singleton_self _)) hasked

/-- A run up to one of its requests. -/
theorem Server.StepsAll.split {e : Request × Response}
    (h : srv.StepsAll s (tr ++ e :: tr') s') :
    ∃ s₁ s₂, srv.StepsAll s tr s₁ ∧ srv.Steps e.1 s₁ e.2 s₂ := by
  induction tr generalizing s with
  | nil =>
      cases h with
      | cons hstep _ => exact ⟨s, _, .nil s, hstep⟩
  | cons d tr ih =>
      cases h with
      | cons hstep hrest =>
          obtain ⟨s₁, s₂, hrun, hstep'⟩ := ih hrest
          exact ⟨s₁, s₂, .cons hstep hrun, hstep'⟩

theorem CommonBody.ofPath_error {body : CommonBody} {mk : Path → Command} {status : Int}
    (h : body.ofPath mk = .error status) : 400 ≤ status := by
  unfold CommonBody.ofPath at h
  split at h
  · cases h
    decide
  · cases h

theorem CommonBody.ofSrcDst_error {body : CommonBody} {mk : SrcDstBody → Command} {status : Int}
    (h : body.ofSrcDst mk = .error status) : 400 ≤ status := by
  unfold CommonBody.ofSrcDst at h
  split at h
  · cases h
    decide
  · cases h

/-- A body that is no command is refused with an error. -/
theorem command_error {opName : Option Op} {body : CommonBody} {status : Int}
    (h : command opName body = .error status) : 400 ≤ status := by
  cases opName with
  | none =>
      cases h
      decide
  | some op =>
      cases op with
      | createFile | readFile | readMetadata | listDirectory | removeFile | makeDirectory
      | removeDirectory => exact CommonBody.ofPath_error h
      | copyFile | moveFile | moveDirectory => exact CommonBody.ofSrcDst_error h
      | fileUpload =>
          cases h
          decide
      | fileDownload =>
          rw [command, CommonBody.ofDownload] at h
          split at h
          · cases h
            decide
          · cases h

/-- Only a form uploads. -/
theorem command_ne_upload {opName : Option Op} {body : CommonBody} {params : UploadParams}
    {bytes : List UInt8} : command opName body ≠ .ok (.upload params bytes) := by
  intro h
  cases opName with
  | none => cases h
  | some op =>
      cases op with
      | createFile | readFile | readMetadata | listDirectory | removeFile | makeDirectory
      | removeDirectory =>
          rw [command, CommonBody.ofPath] at h
          split at h <;> cases h
      | copyFile | moveFile | moveDirectory =>
          rw [command, CommonBody.ofSrcDst] at h
          split at h <;> cases h
      | fileUpload => cases h
      | fileDownload =>
          rw [command, CommonBody.ofDownload] at h
          split at h <;> cases h

/-- An upload has no more bytes than the ceiling allows. -/
theorem length_of_asked_upload {now : Time} {params : UploadParams} {bytes : List UInt8}
    (h : srv.asked now q = .ok (sc, .ok (.upload params bytes))) :
    bytes.length ≤ maxUploadBytes := by
  obtain ⟨-, ⟨body, hcmd⟩ | ⟨params', parts, hcmd⟩⟩ := asked_ok h
  · exact absurd hcmd.symm command_ne_upload
  · obtain herr | ⟨bytes', hlen, hok⟩ := uploadCommand_cases params' parts
    · cases hcmd.trans herr
    · cases hcmd.trans hok
      exact hlen

/-- A body without a command is refused. -/
theorem asked_command_error {now : Time} {status : Int}
    (h : srv.asked now q = .ok (sc, .error status)) : 400 ≤ status := by
  obtain ⟨-, ⟨body, hcmd⟩ | ⟨params, parts, hcmd⟩⟩ := asked_ok h
  · exact command_error hcmd.symm
  · obtain herr | ⟨bytes, -, hok⟩ := uploadCommand_cases params parts
    · cases hcmd.trans herr
      decide
    · cases hcmd.trans hok

/-- The bytes of a reply are of a file of the scope that the request was
admitted to. -/
theorem Server.Steps.stream {n : Int} {bytes : List UInt8}
    (h : srv.Steps q s (.stream n bytes) s') :
    ∃ now sc cmd, srv.asked now q = .ok (sc, .ok cmd) ∧
      ∃ y bs, sc.loc <+: y ∧ s.volume.file y = some bs ∧ bytes <:+: bs := by
  have hstatus {k : Int} (hk : 400 ≤ k) (h : (Response.stream n bytes).status = k) : False := by
    have h200 : (200 : Int) = k := h
    omega
  obtain ⟨now, hadmits⟩ := h
  cases hasked : srv.asked now q with
  | error status =>
      rw [hasked] at hadmits
      exact (hstatus (asked_error hasked) hadmits.1).elim
  | ok r =>
      obtain ⟨sc, cmd⟩ := r
      rw [hasked] at hadmits
      obtain ⟨-, h418, -⟩ | ⟨-, h429, -⟩ | ⟨-, hexec⟩ := hadmits
      · exact (hstatus (by decide) h418).elim
      · exact (hstatus (by decide) h429).elim
      · cases cmd with
        | error status => exact (hstatus (asked_command_error hasked) hexec.1).elim
        | ok cmd =>
            have hanswered := hexec.1
            rw [volume_counted] at hanswered
            exact ⟨now, sc, cmd, hasked, hanswered.stream⟩

/-- **Nothing crosses scopes**: whatever requests are served, every file of a
scope is empty, or has a content that was in the scope at the start or was
uploaded into it; and the bytes of every reply are a stretch of such a content
of the scope that the request was admitted to. -/
theorem contents_stay_in_scope (hsrv : srv.Sound ts) (hroots : srv.Rooted) {w w' : World}
    (h : Has w s) (hs : s.Regular ts) (hrun : Serving srv w tr w') :
    (∀ sc ∈ srv.scopes, ∀ x bs, sc.loc <+: x → w'.tree.content x = some bs →
      Origin srv sc w.tree tr bs) ∧
    ∀ past q n bytes rest, tr = past ++ (q, .stream n bytes) :: rest →
      ∃ now sc cmd, srv.asked now q = .ok (sc, .ok cmd) ∧
        ∃ bs, Origin srv sc w.tree past bs ∧ bytes <:+: bs := by
  obtain ⟨s', hsteps, h'⟩ := hrun.steps hsrv h hs
  refine ⟨fun sc hsc x bs hx hfile => ?_, fun past q n bytes rest htr => ?_⟩
  · rw [h'.tree.content] at hfile
    exact hsteps.origin hroots hsc h.tree hx hfile
  · rw [htr] at hsteps
    obtain ⟨s₁, s₂, hpast, hstep⟩ := hsteps.split
    obtain ⟨now, sc, cmd, hasked, y, bs, hy, hfile, hbytes⟩ := hstep.stream
    exact ⟨now, sc, cmd, hasked, bs,
      hpast.origin hroots (asked_ok hasked).1 h.tree hy hfile, hbytes⟩

end Runs

/-- Where contents come from when one byte is uploaded to an empty disk, and
downloaded. -/
theorem Origin.of_oneByte {sc : Scope} {tr : List (Request × Response)} {bs : List UInt8}
    (h : Origin twoScopes sc (World.of justTemp).tree tr bs)
    (htr : ∀ e ∈ tr, e.1 = uploadOf rightSize ∨ e.1 = downloadByte) :
    bs = [] ∨ ∃ now params,
      twoScopes.asked now (uploadOf rightSize) = .ok (sc, .ok (.upload params bs)) := by
  cases h with
  | empty => exact .inl rfl
  | initial hx h =>
      rw [(has_of justTemp).tree.content, justTemp, FileVolume.file_mkdirs,
        FileVolume.file_empty] at h
      cases h
  | @uploaded e now params bs he h =>
      obtain heq | heq := htr e he
      · exact .inr ⟨now, params, heq ▸ h⟩
      · have hcmd := (Prod.mk.inj (Except.ok.inj ((asked_downloadByte now).symm.trans (heq ▸ h)))).2
        cases Except.ok.inj hcmd

/-- One byte is uploaded to an empty disk, and downloaded: every file that is
not empty, and the download, has its content of that upload. -/
theorem contents_stay_in_scope_justTemp : ∃ f w',
    Serving twoScopes (World.of justTemp)
      [(uploadOf rightSize, .file f), (downloadByte, .stream 1 [8])] w' ∧
    (∀ sc ∈ twoScopes.scopes, ∀ x bs, sc.loc <+: x → w'.tree.content x = some bs →
      bs = [] ∨ ∃ now params,
        twoScopes.asked now (uploadOf rightSize) = .ok (sc, .ok (.upload params bs))) ∧
    ∃ now params bs, twoScopes.asked now (uploadOf rightSize) =
      .ok (rwScope, .ok (.upload params bs)) ∧ [8] <:+: bs := by
  obtain ⟨w₁, s₁, f, hup, h₁, hs₁, hreports, hfile, honly⟩ := exists_oneByte
  obtain ⟨w', s', resp, hdown, hstep, -⟩ := exists_reply twoScopes_sound h₁ hs₁ downloadByte
  have hanswered := ((hstep.turned_or_executes (asks_of_asked asked_downloadByte)).resolve_left
    (not_turnsAway asked_downloadByte)).1
  obtain rfl : resp = .stream 1 [8] :=
    downloaded_of_answered (fun ss hss _ => honly ss hss) hfile hanswered
  have hrun : Serving twoScopes (World.of justTemp)
      [(uploadOf rightSize, .file f), (downloadByte, .stream 1 [8])] w' :=
    .cons hup (.cons hdown (.nil w'))
  obtain ⟨hfiles, hstreams⟩ := contents_stay_in_scope twoScopes_sound twoScopes_rooted
    (has_of justTemp) justTemp_regular hrun
  refine ⟨f, w', hrun, fun sc hsc x bs hx hcontent => ?_, ?_⟩
  · exact (hfiles sc hsc x bs hx hcontent).of_oneByte (by simp)
  · obtain ⟨now, sc, cmd, hasked, bs, horigin, hbytes⟩ := hstreams
      [(uploadOf rightSize, .file f)] downloadByte 1 [8] [] rfl
    obtain ⟨rfl, -⟩ := Prod.mk.inj (Except.ok.inj ((asked_downloadByte now).symm.trans hasked))
    obtain rfl | ⟨now, params, h⟩ := horigin.of_oneByte (by simp)
    · cases List.infix_nil.mp hbytes
    · exact ⟨now, params, bs, h, hbytes⟩

end OcuFilestore.Peer
