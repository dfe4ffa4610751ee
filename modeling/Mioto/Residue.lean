import Mioto.ServiceFrame
import Mioto.Twin
import Mioto.UpdateFrame

/-! What the singletons keep across accounts, and where a service step looks at it:
two states that differ in nothing else take the same step, if they agree on what the
step reads. -/

namespace Mioto

/-- The fields of the cached profile that a method reads. -/
def Call.reads : Call → Key → Bool
  | .updateDataWithName .., k => k.carried
  | .emailLinking _, k => k == .mUserEmail
  | _, _ => false

namespace Service

def cached (s : Service) (k : Key) : Option String := s.newUser.bind (·.property k)

/-- Two states that differ at most in `newUser`, `mDownloadedURL`, the observers and
the token; the cached profiles agree on the fields in `K`. -/
structure Alike (K : Key → Prop) (a b : Service) : Prop where
  users : a.users = b.users
  currentUser : a.currentUser = b.currentUser
  pending : a.pending = b.pending
  replies : a.replies = b.replies
  raised : a.raised = b.raised
  cached : ∀ k, K k → a.cached k = b.cached k

abbrev Same (K : Key → Prop) (r r' : Done) : Prop := Sequence.Agree (Alike K) (· = ·) r r'

variable {K : Key → Prop} {a b : Service}

theorem Alike.symm (h : a.Alike K b) : b.Alike K a :=
  ⟨h.users.symm, h.currentUser.symm, h.pending.symm, h.replies.symm, h.raised.symm,
    fun k hk => (h.cached k hk).symm⟩

theorem Alike.trans (h : a.Alike K b) {c : Service} (h' : b.Alike K c) : a.Alike K c :=
  ⟨h.users.trans h'.users, h.currentUser.trans h'.currentUser, h.pending.trans h'.pending,
    h.replies.trans h'.replies, h.raised.trans h'.raised,
    fun k hk => (h.cached k hk).trans (h'.cached k hk)⟩

theorem related_alike (K : Key → Prop) :
    Sequence.Related (fun s : Service => s.raised.isSome) (Alike K)
      (fun o o' : List Effect => o = o') where
  stop h := by rw [h.raised]
  nil := rfl
  append ho hp := by rw [ho, hp]

theorem updatedRecord_congr {n n' : Option Profile}
    (h : ∀ k, k.carried → n.bind (·.property k) = n'.bind (·.property k)) (uid : Uid)
    (name dob gender number : String) :
    updatedRecord uid n name dob gender number = updatedRecord uid n' name dob gender number := by
  funext k
  cases k with
  | mUserImgUrl => exact h .mUserImgUrl rfl
  | mUserEmail => exact h .mUserEmail rfl
  | mUserJoinedDate => exact h .mUserJoinedDate rfl
  | mFBLinking => exact h .mFBLinking rfl
  | mEmailLinking => exact h .mEmailLinking rfl
  | mUserDateOfBirth | mUserGender | mUserID | mUserName | mUserPhone => rfl

theorem Alike.raise (h : a.Alike K b) (x : Exn) : Same K (a.raise x) (b.raise x) :=
  ⟨{ h with raised := rfl }, rfl⟩

theorem Alike.send (h : a.Alike K b) (m : Message) : Same K (a.send m) (b.send m) := ⟨h, rfl⟩

theorem Alike.request (h : a.Alike K b) (i : ScreenId) (q : Request) :
    (a.request i q).Alike K (b.request i q) :=
  { h with pending := by simp only [Service.request, h.pending] }

theorem Alike.setRecord (h : a.Alike K b) (uid : Uid) (d : Dict) :
    Same K (a.setRecord uid d) (b.setRecord uid d) :=
  ⟨{ h with users := by simp only [Service.setRecord, h.users] }, rfl⟩

theorem Alike.setField (h : a.Alike K b) (uid : Uid) (k : Key) (v : Option String) :
    Same K (a.setField uid k v) (b.setField uid k v) :=
  ⟨{ h with users := by simp only [Service.setField, h.users] }, rfl⟩

theorem Alike.andThen {r r' : Done} (hr : Same K r r') {f : Service → Done}
    (hf : ∀ {a b}, a.Alike K b → Same K (f a) (f b)) :
    Same K (Service.andThen r f) (Service.andThen r' f) :=
  (related_alike K).andThen hr fun _ => hf

theorem Alike.saveDataWithEmail (h : a.Alike K b) (t : String)
    (email name dob gender img number fb em : Option String) :
    Same K (a.saveDataWithEmail t email name dob gender img number fb em)
      (b.saveDataWithEmail t email name dob gender img number fb em) := by
  unfold Service.saveDataWithEmail
  rw [← h.currentUser]
  split
  · exact h.raise _
  · split
    · exact h.raise _
    · exact h.setRecord _ _

theorem Alike.call (h : a.Alike K b) (i : ScreenId) (t : String) {c : Call}
    (hc : ∀ k, c.reads k → K k) : Same K (a.call i t c) (b.call i t c) := by
  cases c with
  | saveDataWithEmail => exact h.saveDataWithEmail ..
  | updateDataWithName name dob gender img number =>
    simp only [Service.call, Service.updateDataWithName, ← h.currentUser]
    split
    · exact h.raise _
    · rw [updatedRecord_congr fun k hk => h.cached k (hc k hk)]
      split
      · exact h.raise _
      · exact h.setRecord _ _
  | fetchData =>
    simp only [Service.call, Service.fetchData, ← h.currentUser]
    split
    · exact h.raise _
    · exact ⟨h.request i _, rfl⟩
  | fetchAllData => exact ⟨{ h with }, rfl⟩
  | uploadProfileImage image =>
    simp only [Service.call, Service.uploadProfileImage, ← h.currentUser]
    exact ⟨h.request i _, rfl⟩
  | loginWithFacebook =>
    have h' : { a with currentAccessToken := none }.Alike K
        { b with currentAccessToken := none } := { h with }
    exact ⟨h'.request i _, rfl⟩
  | fbLinking =>
    simp only [Service.call, Service.fbLinking, ← h.currentUser]
    exact ⟨h.request i _, rfl⟩
  | emailLinking password =>
    have he : a.newUser.bind Profile.mUserEmail = b.newUser.bind Profile.mUserEmail :=
      h.cached .mUserEmail (hc _ rfl)
    simp only [Service.call, Service.emailLinking, ← h.currentUser, he]
    split
    · exact ⟨h, rfl⟩
    · exact ⟨h.request i _, rfl⟩
  | signupWithEmail | signinWithEmail | resetPasswordWithEmail => exact ⟨h.request i _, rfl⟩
  | logout keychain =>
    simp only [Service.call, Service.logout, ← h.currentUser]
    split
    · exact h.send _
    · exact ⟨{ h with currentUser := rfl }, rfl⟩

/-! ### Completions and dialogs -/

theorem Alike.linkFlag (h : a.Alike K b) (k : Key) (m : Int → Message) (error : Bool) :
    Same K (a.linkFlag k m error) (b.linkFlag k m error) := by
  unfold Service.linkFlag
  rw [← h.currentUser]
  split
  · exact h.send _
  · split
    · exact h.raise _
    · exact Alike.andThen (h.setField ..) fun h => h.send _

theorem Alike.saveImg (h : a.Alike K b) (hd : a.mDownloadedURL = b.mDownloadedURL) :
    Same K a.saveImg b.saveImg := by
  unfold Service.saveImg
  rw [← h.currentUser, hd]
  split
  · exact h.raise _
  · exact h.setField ..

theorem Alike.completion (h : a.Alike K b) (t : String) (i : ScreenId) {r : Reply}
    (ht : ∀ x, r = .graphMe x → a.currentAccessToken = b.currentAccessToken) :
    Same (fun k => K k ∨ r.fetchedRecord.isSome) (a.completion t i r) (b.completion t i r) := by
  have mono : ∀ {x y : Done}, r.fetchedRecord = none → Same K x y →
      Same (fun k => K k ∨ r.fetchedRecord.isSome) x y := by
    intro x y hn hs
    exact ⟨{ hs.1 with cached := fun k hk => hs.1.cached k (by simpa [hn] using hk) }, hs.2⟩
  cases r with
  | fetched u n =>
    cases n with
    | dict d => exact ⟨{ h with cached := fun _ _ => rfl }, rfl⟩
    | null | leaf => exact mono rfl (h.raise _)
  | putData u error =>
    cases error
    · exact mono rfl ⟨h.request i _, rfl⟩
    · exact mono rfl (h.send _)
  | downloadURL u token =>
    cases token with
    | none => exact mono rfl ⟨h, rfl⟩
    | some token =>
      have h' : { a with mDownloadedURL := some (storageURL u token) }.Alike K
          { b with mDownloadedURL := some (storageURL u token) } := { h with }
      exact mono rfl (Alike.andThen (h'.saveImg rfl) fun h => h.send _)
  | graphMe result =>
    rcases result with _ | _ | email
    · exact mono rfl ⟨h, rfl⟩
    · exact mono rfl (h.raise _)
    · have he := ht _ rfl
      simp only [Service.completion, signinWithFirebase, he]
      exact mono rfl ⟨h.request i _, rfl⟩
  | providers => exact mono rfl ⟨h.request i _, rfl⟩
  | signedInFacebook known result =>
    rcases known with _ | _
    · rcases result with _ | user
      · exact mono rfl (h.send _)
      · exact mono rfl (Alike.andThen (h.saveDataWithEmail ..) fun h => h.send _)
    · exact mono rfl (h.send _)
  | linkedFacebook | linkedEmail => exact mono rfl (h.linkFlag ..)
  | fetchCancelled | createdUser | signedIn | resetSent => exact mono rfl (h.send _)

theorem Alike.linkHandler (h : a.Alike K b) (i : ScreenId) (u : Option Uid) {q : DialogResult}
    (hq : q = .cancelled → a.currentAccessToken = b.currentAccessToken) :
    Same K (a.linkHandler i u q) (b.linkHandler i u q) := by
  have hl : ∀ {a b : Service}, a.Alike K b → a.currentAccessToken = b.currentAccessToken →
      Same K (a.linkCurrentToken i u q) (b.linkCurrentToken i u q) := by
    intro a b h ht
    simp only [Service.linkCurrentToken, ← h.currentUser, ht]
    split
    · exact ⟨h, rfl⟩
    · exact ⟨h.request i _, rfl⟩
  cases q with
  | error => exact h.send _
  | cancelled => exact hl h (hq rfl)
  | granted token => exact hl { h with } rfl

theorem Alike.loginHandler (h : a.Alike K b) (i : ScreenId) {q : DialogResult}
    (hq : q = .cancelled → a.currentAccessToken = b.currentAccessToken) :
    Same K (a.loginHandler i q) (b.loginHandler i q) := by
  cases q with
  | error => exact h.send _
  | cancelled =>
    simp only [Service.loginHandler, hq rfl]
    split
    · exact ⟨h.request i _, rfl⟩
    · exact ⟨h, rfl⟩
  | granted token =>
    have h' : { a with currentAccessToken := some token }.Alike K
        { b with currentAccessToken := some token } := { h with }
    exact ⟨h'.request i _, rfl⟩

end Service

def Service.readsToken (s : Service) : ServiceEvent → Bool
  | .dialog _ q => q == .cancelled
  | .complete k _ =>
    match (s.replies[k]?).map Waiting.reply with
    | some (.graphMe _) => true
    | _ => false
  | _ => false

def ServiceEvent.reads : ServiceEvent → Key → Bool
  | .call _ _ c, k => c.reads k
  | _, _ => false

namespace Service

variable {K : Key → Prop} {a b : Service}

/-- Steps from states that are alike, but for what observers do: the later states are
alike, and they agree on the whole cache if the step has fetched a record. -/
theorem Alike.step (h : a.Alike K b) {e : ServiceEvent} {r r' : Done} (hr : a.step e = some r)
    (hr' : b.step e = some r') (he : ∀ o v, e ≠ .childAdded o v) (hk : ∀ k, e.reads k → K k)
    (ht : a.readsToken e → a.currentAccessToken = b.currentAccessToken) :
    Same (fun k => K k ∨ (a.fetches e).isSome) r r' := by
  have mono : ∀ {x y : Done}, a.fetches e = none → Same K x y →
      Same (fun k => K k ∨ (a.fetches e).isSome) x y := by
    intro x y hn hs
    exact ⟨{ hs.1 with cached := fun k hk => hs.1.cached k (by simpa [hn] using hk) }, hs.2⟩
  cases e with
  | call i t c =>
    obtain ⟨-, rfl⟩ := step_call hr
    obtain ⟨-, rfl⟩ := step_call hr'
    exact mono rfl (h.call i t hk)
  | answer k q =>
    obtain ⟨-, p, hp, -, hq⟩ := step_answer hr
    obtain ⟨-, p', hp', -, hq'⟩ := step_answer hr'
    obtain rfl : p = p' := by simpa [h.pending, hp'] using hp.symm
    -- the same request, so both are answered or both raise
    rcases hq with ⟨hn, rfl⟩ | ⟨hn, rfl⟩ <;> rcases hq' with ⟨hn', rfl⟩ | ⟨hn', rfl⟩
    · refine mono rfl ⟨{ h with
        pending := by simp only [Service.answer, h.pending]
        replies := by simp only [Service.answer, h.replies]
        currentUser := by simp only [Service.answer, h.currentUser] }, rfl⟩
    · simp [hn] at hn'
    · simp [hn] at hn'
    · have h' : { a with pending := a.pending.eraseIdx k }.Alike K
          { b with pending := b.pending.eraseIdx k } :=
        { h with pending := by simp only [h.pending] }
      exact mono rfl (h'.raise .noAccessToken)
  | complete k t =>
    obtain ⟨-, w, hw, rfl⟩ := step_complete hr
    obtain ⟨-, w', hw', rfl⟩ := step_complete hr'
    obtain rfl : w = w' := by simpa [h.replies, hw'] using hw.symm
    have h' : { a with replies := a.replies.eraseIdx k }.Alike K
        { b with replies := b.replies.eraseIdx k } :=
      { h with replies := by simp only [h.replies] }
    have hc := h'.completion t w.caller (r := w.reply) fun x hx =>
      ht (by simp [readsToken, hw, hx])
    simp only [fetches, hw, Option.bind_some]
    exact hc
  | dialog k q =>
    obtain ⟨-, p, hp, hc⟩ := step_dialog hr
    obtain ⟨-, p', hp', hc'⟩ := step_dialog hr'
    obtain rfl : p = p' := by simpa [h.pending, hp'] using hp.symm
    have h' : { a with pending := a.pending.eraseIdx k }.Alike K
        { b with pending := b.pending.eraseIdx k } :=
      { h with pending := by simp only [h.pending] }
    rcases closeDialog_eq_some hc with ⟨hp, rfl⟩ | ⟨u, hp, rfl⟩ <;>
      rcases closeDialog_eq_some hc' with ⟨hp', rfl⟩ | ⟨u', hp', rfl⟩ <;>
      rw [hp] at hp' <;> cases hp'
    · exact mono rfl (h'.loginHandler p.caller fun hq => ht (by simp [readsToken, hq]))
    · exact mono rfl (h'.linkHandler p.caller u fun hq => ht (by simp [readsToken, hq]))
  | childAdded o v => exact absurd rfl (he o v)
  | remoteRecord u d | remoteField u k v =>
    simp only [Service.step] at hr hr'
    split_ifs at hr hr'
    obtain rfl := Option.some.inj hr
    obtain rfl := Option.some.inj hr'
    exact mono rfl ⟨{ h with users := by simp only [h.users] }, rfl⟩

end Service

end Mioto
