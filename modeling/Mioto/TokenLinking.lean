import Mioto.FacebookLogin
import Mioto.Operations

/-! Which Facebook token `fbLinking` links. The handler of its dialog looks at the
error only and takes the process-wide token, so a cancelled dialog links whatever
token an earlier login left behind. -/

namespace Mioto

def Request.link : Request → Option (Option Token × DialogResult)
  | .linkFacebook _ credential _ dialog => some (credential, dialog)
  | _ => none

def Reply.linkDialog : Reply → Option DialogResult
  | .linkedFacebook _ _ dialog _ => some dialog
  | _ => none

namespace Service

/-- The result with which an event closes a dialog of `fbLinking`. -/
def closesLinkDialog (s : Service) : ServiceEvent → Option DialogResult
  | .dialog k result =>
    match (s.pending[k]?).map Pending.request with
    | some (.linkDialog _) => some result
    | _ => none
  | _ => none

def completesLink (s : Service) : ServiceEvent → Option DialogResult
  | .complete k _ => (s.replies[k]?).bind (·.reply.linkDialog)
  | _ => none

/-- A link is made only with the token that the dialog of the same call has just
granted, and a link flag is set only for such a call. -/
def LinksGrantedToken (m : ServiceMove) : Prop :=
  (∀ user credential, Effect.linkFacebook user credential ∈ m.out →
    ∃ token, credential = some token ∧
      m.before.closesLinkDialog m.event = some (.granted token)) ∧
  ∀ uid v, Effect.setField uid .mFBLinking v ∈ m.out →
    ∃ token, m.before.completesLink m.event = some (.granted token)

/-- A cancelled dialog of `fbLinking` comes back while somebody is signed in. -/
def CancelledWhileSignedIn (m : ServiceMove) : Prop :=
  m.before.closesLinkDialog m.event = some .cancelled ∧ m.before.currentUser ≠ none

/-- Every link request under way has the token of its own dialog. -/
structure GrantedLinks (s : Service) : Prop where
  pending : ∀ p ∈ s.pending, ∀ credential dialog, p.request.link = some (credential, dialog) →
    ∃ token, credential = some token ∧ dialog = .granted token
  replies : ∀ w ∈ s.replies, ∀ dialog, w.reply.linkDialog = some dialog →
    ∃ token, dialog = .granted token

/-! ### Where a link comes from -/

/-- A link is asked for by the handler of a dialog of `fbLinking` only. -/
theorem link_of_asks {s : Service} {e : ServiceEvent} {p : Pending} {credential : Option Token}
    {dialog : DialogResult} (h : s.asks e = some p)
    (hl : p.request.link = some (credential, dialog)) :
    s.closesLinkDialog e = some dialog ∧ (dialog = .cancelled ∧ s.currentUser ≠ none ∨
      ∃ token, credential = some token ∧ dialog = .granted token) := by
  cases e <;> simp only [asks, reduceCtorEq, Option.map_eq_some_iff, Option.bind_eq_some_iff] at h
  case call i t c =>
    obtain ⟨q, hq, rfl⟩ := h
    cases c <;> simp only [Call.asks, Option.map_eq_some_iff, Option.some.injEq,
      reduceCtorEq] at hq
    case fetchData | emailLinking =>
      obtain ⟨u, -, rfl⟩ := hq
      cases hl
    all_goals
      subst hq
      cases hl
  case complete k t =>
    obtain ⟨w, -, q, hq, rfl⟩ := h
    unfold Reply.asks at hq
    split at hq <;> cases hq <;> cases hl
  case dialog k result =>
    obtain ⟨p', hp, q, hq, rfl⟩ := h
    unfold Request.asks at hq
    split at hq
    · -- the handler of a login asks for the email
      split at hq
      · cases hq
      · split_ifs at hq
        cases hq
        cases hl
      · cases hq
        cases hl
    · next starter hs =>
      have hd : s.closesLinkDialog (.dialog k result) = some result := by
        simp [closesLinkDialog, hp, hs]
      split at hq
      · cases hq
      · obtain ⟨user, hu, rfl⟩ := Option.map_eq_some_iff.mp hq
        cases hl
        exact ⟨hd, .inl ⟨rfl, by simp [hu]⟩⟩
      · obtain ⟨user, hu, rfl⟩ := Option.map_eq_some_iff.mp hq
        cases hl
        exact ⟨hd, .inr ⟨_, rfl, rfl⟩⟩
    · cases hq

theorem link_of_answers {s : Service} {q : Request} {r : Reply} {dialog : DialogResult}
    (ha : s.answers q r) (hr : r.linkDialog = some dialog) :
    ∃ credential, q.link = some (credential, dialog) := by
  cases r <;> simp only [Reply.linkDialog, reduceCtorEq, Option.some.injEq] at hr
  cases q <;> simp only [answers, Bool.false_eq_true] at ha
  simp only [decide_eq_true_eq] at ha
  exact ⟨_, by rw [Request.link, ← ha.2.2, hr]⟩

theorem GrantedLinks.step {s s' : Service} {e : ServiceEvent} {o : List Effect}
    (h : s.step e = some (s', o)) (hc : ¬ CancelledWhileSignedIn ⟨s, e, s', o⟩)
    (hg : GrantedLinks s) : GrantedLinks s' := by
  constructor
  · intro p hp credential dialog hl
    rcases pending_step h p hp with hp | hp
    · exact hg.pending p hp credential dialog hl
    · obtain ⟨hd, ⟨rfl, hu⟩ | ht⟩ := link_of_asks hp hl
      · exact absurd ⟨hd, hu⟩ hc
      · exact ht
  · intro w hw dialog hl
    rcases replies_step h w hw with hw | ⟨k, p, hp, rfl, ha⟩
    · exact hg.replies w hw dialog hl
    · obtain ⟨credential, hq⟩ := link_of_answers ha hl
      obtain ⟨token, -, hd⟩ := hg.pending p hp credential dialog hq
      exact ⟨token, hd⟩

theorem GrantedLinks.run {s₀ s : Service} {h : ServiceHistory} (hl : Launch s₀)
    (hr : machine.Run s₀ h s) (hc : ∀ m ∈ h, ¬ CancelledWhileSignedIn m) : GrantedLinks s := by
  have h0 : GrantedLinks s₀ := ⟨by simp [hl.pending], by simp [hl.replies]⟩
  exact hr.invariant h0 (fun m hm hn hg => hg.step hm hn) hc

theorem Called.linkFacebook_not_mem {s : Service} {i : ScreenId} {t : String} {c : Call}
    {r : Done} (h : Called s i t c r) (u : Uid) (credential : Option Token) :
    Effect.linkFacebook u credential ∉ r.2 := by
  cases h <;> simp [raise, setRecord, send]

theorem Completed.linkFacebook_not_mem {s : Service} {t : String} {i : ScreenId} {q : Reply}
    {r : Done} (h : Completed s t i q r) (u : Uid) (credential : Option Token) :
    Effect.linkFacebook u credential ∉ r.2 := by
  cases h <;> simp [raise, send]

theorem ChildTold.linkFacebook_not_mem {s : Service} {ob : Observer} {n : Node} {r : Done}
    (h : ChildTold s ob n r) (u : Uid) (credential : Option Token) :
    Effect.linkFacebook u credential ∉ r.2 := by
  cases h <;> simp [raise, send]

theorem Closed.linkFacebook_mem {s : Service} {i : ScreenId} {p : Request} {q : DialogResult}
    {r : Done} (h : Closed s i p q r) {u : Uid} {credential : Option Token} :
    Effect.linkFacebook u credential ∈ r.2 ↔ s.currentUser = some u ∧
      (∃ starter, p = .linkDialog starter) ∧
        (q = .cancelled ∧ credential = s.currentAccessToken ∨
          ∃ token, q = .granted token ∧ credential = some token) := by
  cases h with
  | linkCancelled hu | linkUnasked _ hu => simp [hu]
  | linkResumed hu | linkGranted _ hu => simp [hu, eq_comm]
  | _ => simp [send]

theorem linkFacebook_mem_out {s s' : Service} {e : ServiceEvent} {o : List Effect}
    (h : s.step e = some (s', o)) {u : Uid} {credential : Option Token} :
    Effect.linkFacebook u credential ∈ o ↔ s.currentUser = some u ∧
      (s.closesLinkDialog e = some .cancelled ∧ credential = s.currentAccessToken ∨
        ∃ token, s.closesLinkDialog e = some (.granted token) ∧ credential = some token) := by
  cases (stepped h).2 with
  | called hc => simpa [closesLinkDialog] using hc.linkFacebook_not_mem u credential
  | completed _ hc => simpa [closesLinkDialog] using hc.linkFacebook_not_mem u credential
  | told _ _ _ hc => simpa [closesLinkDialog] using hc.linkFacebook_not_mem u credential
  | @closed k q p _ hp hc =>
    rw [hc.linkFacebook_mem]
    simp only [closesLinkDialog, hp, Option.map_some]
    cases p.request <;> simp
  | answered | refused | remoteRecord | remoteField => simp [closesLinkDialog]

theorem completesLink_of_setField {s s' : Service} {e : ServiceEvent} {o : List Effect}
    (h : s.step e = some (s', o)) {uid : Uid} {v : Option String}
    (hv : Effect.setField uid .mFBLinking v ∈ o) (hg : GrantedLinks s) :
    ∃ token, s.completesLink e = some (.granted token) := by
  obtain ⟨-, hw⟩ := (setField_mem_out h).mp hv
  obtain ⟨k, t, w, rfl, hw, hf⟩ := writes_eq_some hw
  cases hq : w.reply <;> simp only [hq, Reply.writtenField, reduceCtorEq] at hf
  next u token => cases token <;> simp at hf
  next u starter dialog error =>
    have hl : w.reply.linkDialog = some dialog := by rw [hq]; rfl
    obtain ⟨token, rfl⟩ := hg.replies w (List.mem_of_getElem? hw) dialog hl
    exact ⟨token, by simp [completesLink, hw, hl]⟩
  next u error => cases error <;> simp at hf

/-- From a launch, `fbLinking` uses its own tokens only exactly when no dialog of
it is cancelled while somebody is signed in. -/
theorem links_granted_tokens_iff {s₀ s : Service} {h : ServiceHistory} (hl : Launch s₀)
    (hr : machine.Run s₀ h s) :
    (∀ m ∈ h, LinksGrantedToken m) ↔ ∀ m ∈ h, ¬ CancelledWhileSignedIn m := by
  constructor
  · rintro hg m hm ⟨hc, hu⟩
    obtain ⟨u, hu⟩ := Option.ne_none_iff_exists'.mp hu
    obtain ⟨token, -, ht⟩ := (hg m hm).1 u m.before.currentAccessToken
      ((linkFacebook_mem_out (hr.fires m hm)).mpr ⟨hu, .inl ⟨hc, rfl⟩⟩)
    rw [hc] at ht
    cases ht
  · intro hc m hm
    have hf := hr.fires m hm
    constructor
    · intro u credential hmem
      obtain ⟨hu, ⟨hq, -⟩ | ⟨token, hq, rfl⟩⟩ := (linkFacebook_mem_out hf).mp hmem
      · exact absurd ⟨hq, by simp [hu]⟩ (hc m hm)
      · exact ⟨token, rfl, hq⟩
    · intro uid v hv
      obtain ⟨newer, older, rfl⟩ := List.append_of_mem hm
      have hp := hr.before rfl
      exact completesLink_of_setField hf hv
        (GrantedLinks.run hl hp fun m' hm' => hc m' (by simp [hm']))

def signInThenLink (result : DialogResult) : List ServiceEvent :=
  [.call 0 "" (.signinWithEmail "v@mail.com" "secret"), .answer 0 (.signedIn (some "v")),
    .complete 0 "", .call 1 "" .fbLinking, .dialog 0 result]

theorem granted_link_links_granted_token :
    let r := (machine.exec [] (launch none []) (signInThenLink (.granted "v's"))).get (by decide)
    machine.Run (launch none []) r.1 r.2 ∧ ∀ m ∈ r.1, LinksGrantedToken m := by
  intro r
  have hr : machine.Run (launch none []) r.1 r.2 := Machine.exec_run _
  refine ⟨hr, (links_granted_tokens_iff (launch_launch none []) hr).mpr ?_⟩
  refine List.forall_mem_cons.mpr ⟨?_, List.forall_mem_cons.mpr ⟨?_, List.forall_mem_cons.mpr ⟨?_,
    List.forall_mem_cons.mpr ⟨?_, List.forall_mem_cons.mpr ⟨?_, by simp⟩⟩⟩⟩⟩ <;>
    rintro ⟨hc, -⟩ <;> exact absurd hc (by decide)

def cancelledLinkAfterLogin : List ServiceEvent :=
  (launch none []).loginEvents 0 "" ⟨.granted "u's", some (some "u@mail.com"), some [],
    some ⟨"u", some "u@mail.com", some "u", some "photo"⟩⟩ ++
  .call 1 "" (.logout true) :: signInThenLink .cancelled

theorem cancelled_link_links_old_token : ¬ ∀ s₀ h s, Launch s₀ → machine.Run s₀ h s →
    ∀ m ∈ h, LinksGrantedToken m := by
  intro hall
  let r := (machine.exec [] (launch none []) cancelledLinkAfterLogin).get (by decide)
  have hr : machine.Run _ r.1 r.2 := Machine.exec_run _
  have hg := hall _ _ _ (launch_launch _ _) hr (r.1.head (by decide)) (List.head_mem _)
  obtain ⟨token, -, ht⟩ := hg.1 "v" (some "u's") (by decide)
  cases ht

end Service

end Mioto
