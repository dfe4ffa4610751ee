import Mioto.FacebookLogin
import Mioto.Messages
import Mioto.UpdateFrame

/-! What `signinWithFirebase:` reports and stores. Its two branches sign in with the same
credential, but only one looks at the result and writes the record. -/

namespace Mioto

def Effect.isWrite : Effect → Bool
  | .setRecord _ _ | .setField _ _ _ => true
  | _ => false

namespace Service

/-- What the two requests come back with. The block of the provider query sees nil when
there was an error. -/
structure SignInResults where
  providers : Option (List String)
  signIn : Option FIRUser

/-- The Graph request for the email is back, so `signinWithFirebase:` comes next. -/
def emailKnown (s : Service) (i : ScreenId) (email : Option String) : Service :=
  { s with replies := s.replies ++ [⟨.graphMe (some email), i⟩] }

/-- The events of one sign-in, as far as its steps ask for another. Without a Facebook token
the SDK raises when it comes to send the credential, and nothing is completed after that. -/
def signinEvents (s : Service) (t : String) (email : Option String) (r : SignInResults) :
    List ServiceEvent :=
  .complete s.replies.length t ::
    match email, s.currentAccessToken with
    | none, _ => []
    | some _, none =>
      [.answer s.pending.length (.providers none r.providers), .complete s.replies.length t,
        .answer s.pending.length (.signedInFacebook r.providers.isSome r.signIn)]
    | some _, some token =>
      [.answer s.pending.length (.providers (some token) r.providers),
        .complete s.replies.length t,
        .answer s.pending.length (.signedInFacebook r.providers.isSome r.signIn),
        .complete s.replies.length t]

def HasRecord (users : Uid → Node) (u : Uid) : Prop := ∃ d, users u = .dict d ∧ Complete d

/-- No exception; and either status 1 for a sign-in that succeeded and whose user now has a
whole record, or another status and nothing written. -/
def ReportsSignIn (r : SignInResults) (h : ServiceHistory) (s' : Service) : Prop :=
  s'.raised = none ∧
    ((effectsOf h).filterMap Effect.message = [.loginFbWithStatus 1] ∧
        (∃ user, r.signIn = some user ∧ HasRecord s'.users user.uid) ∨
      ∃ status, status ≠ 1 ∧ (effectsOf h).filterMap Effect.message = [.loginFbWithStatus status] ∧
        ∀ x ∈ effectsOf h, x.isWrite = false)

/-- There are an email and a Facebook token. If the email has providers, the sign-in succeeds
and its user has a whole record; if it has none, the user that may come back has an email, a
name and a photo. -/
def SignsInProperly (s : Service) (email : Option String) (r : SignInResults) : Prop :=
  email.isSome ∧ s.currentAccessToken.isSome ∧
    (r.providers.isSome → ∃ user, r.signIn = some user ∧ HasRecord s.users user.uid) ∧
    (r.providers = none → ∀ user, r.signIn = some user →
      user.email.isSome ∧ user.displayName.isSome ∧ user.photoURL.isSome)

theorem exec_emailKnown {s : Service} (hs : s.raised = none) (i : ScreenId) (t : String)
    (email : Option String) (es : List ServiceEvent) :
    ∃ h, machine.exec [] (s.emailKnown i email) (.complete s.replies.length t :: es) =
        machine.exec h (s.signinWithFirebase i email).1 es ∧
      effectsOf h = (s.signinWithFirebase i email).2 := by
  have hstep : machine.step (s.emailKnown i email) (.complete s.replies.length t) =
      some (s.signinWithFirebase i email) := by
    have hn : s.raised.isSome = false := by simp [hs]
    simp [machine, step, emailKnown, hn, complete, eraseIdx_concat_length, completion]
  exact ⟨_, Machine.exec_cons hstep [] es, by simp [effectsOf]⟩

/-- What the block of the sign-in does, which finds its user signed in. -/
def lastBlock (s : Service) (i : ScreenId) (t : String) (r : SignInResults) : Done :=
  { s with currentUser := (r.signIn.map FIRUser.uid).or s.currentUser }.completion t i
    (.signedInFacebook r.providers.isSome r.signIn)

/-- The provider query comes back, and its block asks for the sign-in. -/
theorem exec_providers {s : Service} (hs : s.raised = none) (i : ScreenId) (t email : String)
    (providers : Option (List String)) (es : List ServiceEvent) :
    ∃ h, machine.exec [] (s.emailKnown i (some email)) (.complete s.replies.length t ::
          .answer s.pending.length (.providers s.currentAccessToken providers) ::
          .complete s.replies.length t :: es) =
        machine.exec h (s.request i (.signInFacebook s.currentAccessToken providers.isSome)) es ∧
      effectsOf h = [] := by
  obtain ⟨h, he, hout⟩ := exec_emailKnown hs i t (some email)
    (.answer s.pending.length (.providers s.currentAccessToken providers) ::
      .complete s.replies.length t :: es)
  obtain ⟨hp, hep, houtp⟩ := exec_round (q := .fetchProviders email s.currentAccessToken)
    (r := .providers s.currentAccessToken providers) hs (by simp [answers]) rfl h i t es
  exact ⟨hp, he.trans hep, by rw [houtp, hout]; rfl⟩

theorem exec_signin {s : Service} (hs : s.raised = none) {token : Token}
    (ht : s.currentAccessToken = some token) (i : ScreenId) (t email : String)
    (r : SignInResults) :
    ∃ h, machine.exec [] (s.emailKnown i (some email)) (s.signinEvents t (some email) r) =
        some (h, (s.lastBlock i t r).1) ∧ effectsOf h = (s.lastBlock i t r).2 := by
  obtain ⟨h, he, hout⟩ := exec_providers hs i t email r.providers
    [.answer s.pending.length (.signedInFacebook r.providers.isSome r.signIn),
      .complete s.replies.length t]
  obtain ⟨hf, hef, houtf⟩ := exec_round
    (q := .signInFacebook s.currentAccessToken r.providers.isSome)
    (r := .signedInFacebook r.providers.isSome r.signIn) hs (by simp [answers]) (by rw [ht]; rfl)
    h i t []
  have hby : signedInBy (.signedInFacebook r.providers.isSome r.signIn) =
      r.signIn.map FIRUser.uid := by
    cases r.signIn <;> rfl
  rw [hby] at hef houtf
  have hev : s.signinEvents t (some email) r = .complete s.replies.length t ::
      .answer s.pending.length (.providers s.currentAccessToken r.providers) ::
      .complete s.replies.length t ::
      [.answer s.pending.length (.signedInFacebook r.providers.isSome r.signIn),
        .complete s.replies.length t] := by
    simp only [signinEvents, ht]
  exact ⟨hf, hev ▸ he.trans hef, by rw [houtf, hout]; rfl⟩

theorem exec_refused {s : Service} (hs : s.raised = none) (ht : s.currentAccessToken = none)
    (i : ScreenId) (t email : String) (r : SignInResults) :
    ∃ h s', machine.exec [] (s.emailKnown i (some email)) (s.signinEvents t (some email) r) =
      some (h, s') ∧ s'.raised = some .noAccessToken := by
  obtain ⟨h, he, -⟩ := exec_providers hs i t email r.providers
    [.answer s.pending.length (.signedInFacebook r.providers.isSome r.signIn)]
  have hstep : machine.step (s.request i (.signInFacebook none r.providers.isSome))
      (.answer s.pending.length (.signedInFacebook r.providers.isSome r.signIn)) =
      some (s.raise .noAccessToken) := by
    have hn : s.raised.isSome = false := by simp [hs]
    simp [machine, step, request, hn, answers, refuses, eraseIdx_concat_length, raise]
  simp only [signinEvents, ht] at he ⊢
  exact ⟨_, _, he.trans (Machine.exec_cons hstep h []), rfl⟩

theorem reportsSignIn_iff_of_known {s : Service} {h : ServiceHistory} {r : SignInResults}
    (hs : s.raised = none) (hk : r.providers.isSome) {i : ScreenId} {t : String}
    (ho : effectsOf h = (s.lastBlock i t r).2) : ReportsSignIn r h (s.lastBlock i t r).1 ↔
      ∃ user, r.signIn = some user ∧ HasRecord s.users user.uid := by
  have hb : s.lastBlock i t r =
      { s with currentUser := (r.signIn.map FIRUser.uid).or s.currentUser }.send
        (.loginFbWithStatus 1) := by
    rw [lastBlock, hk]
    rfl
  rw [hb] at ho ⊢
  simp [ReportsSignIn, ho, hs, send, Effect.message]

theorem completion_register {s : Service} (hs : s.raised = none) (t : String) (i : ScreenId)
    (user : FIRUser) :
    { s with currentUser := some user.uid }.completion t i (.signedInFacebook false (some user)) =
      if user.email.isSome ∧ user.displayName.isSome ∧ user.photoURL.isSome then
        ({ s with
          currentUser := some user.uid
          users := Function.update s.users user.uid (.dict (facebookRecord t user)) },
          [.setRecord user.uid (facebookRecord t user), .send (.loginFbWithStatus 1)])
      else ({ s with currentUser := some user.uid, raised := some .nilInDictionary },
        [.raise .nilInDictionary]) := by
  simp only [completion, registerFacebook]
  rw [saveDataWithEmail_facebook (s := { s with currentUser := some user.uid }) user t rfl]
  split_ifs
  · simp [andThen, Sequence.andThen, setRecord, hs, send, ofDict_facebookRecord]
  · simp [andThen, Sequence.andThen, raise]

theorem complete_facebookRecord {t : String} {user : FIRUser}
    (h : user.email.isSome ∧ user.displayName.isSome ∧ user.photoURL.isSome) :
    Complete (facebookRecord t user) := by
  intro k
  cases k <;> simp [facebookRecord, savedRecord, h]

theorem reportsSignIn_iff_of_new {s : Service} {h : ServiceHistory} {r : SignInResults}
    (hs : s.raised = none) (hk : r.providers = none) {i : ScreenId} {t : String}
    (ho : effectsOf h = (s.lastBlock i t r).2) : ReportsSignIn r h (s.lastBlock i t r).1 ↔
      ∀ user, r.signIn = some user →
        user.email.isSome ∧ user.displayName.isSome ∧ user.photoURL.isSome := by
  cases hu : r.signIn with
  | none =>
    have hb : s.lastBlock i t r = s.send (.loginFbWithStatus (-1)) := by
      rw [lastBlock, hk, hu]
      rfl
    rw [hb] at ho ⊢
    refine iff_of_true ⟨hs, .inr ⟨-1, by decide, ?_, ?_⟩⟩ (fun _ h => by cases h) <;>
      simp [ho, send, Effect.message, Effect.isWrite]
  | some user =>
    have hb : s.lastBlock i t r = { s with currentUser := some user.uid }.completion t i
        (.signedInFacebook false (some user)) := by
      rw [lastBlock, hk, hu]
      rfl
    rw [completion_register hs] at hb
    by_cases hf : user.email.isSome ∧ user.displayName.isSome ∧ user.photoURL.isSome
    · rw [hb, if_pos hf] at ho ⊢
      refine iff_of_true ⟨hs, .inl ⟨by rw [ho]; rfl, user, hu, ?_⟩⟩ ?_
      · exact ⟨_, Function.update_self .., complete_facebookRecord hf⟩
      · rintro user' he
        obtain rfl := Option.some.inj he
        exact hf
    · rw [hb, if_neg hf]
      exact iff_of_false (fun h => by cases h.1) fun h => hf (h user rfl)

/-- A sign-in ends without an exception, with status 1 only for a user with a whole record
and otherwise with another status and nothing written, exactly when it signs in properly. -/
theorem facebook_signin_reports_iff {s : Service} (hs : s.raised = none) (i : ScreenId)
    (t : String) (email : Option String) (r : SignInResults) :
    ∃ h s', machine.exec [] (s.emailKnown i email) (s.signinEvents t email r) = some (h, s') ∧
      (ReportsSignIn r h s' ↔ s.SignsInProperly email r) := by
  cases email with
  | none =>
    obtain ⟨h, he, -⟩ := exec_emailKnown hs i t none []
    refine ⟨h, _, he, iff_of_false (fun hh => ?_) fun hh => by cases hh.1⟩
    cases hh.1
  | some email =>
    cases ht : s.currentAccessToken with
    | none =>
      obtain ⟨h, s', he, hraised⟩ := exec_refused hs ht i t email r
      refine ⟨h, s', he, iff_of_false (fun hh => ?_) fun hh => ?_⟩
      · exact absurd hh.1 (by simp [hraised])
      · exact absurd hh.2.1 (by simp [ht])
    | some token =>
      obtain ⟨h, he, ho⟩ := exec_signin hs ht i t email r
      refine ⟨h, _, he, ?_⟩
      by_cases hk : r.providers = none
      · rw [reportsSignIn_iff_of_new hs hk ho]
        simp [SignsInProperly, ht, hk]
      · rw [reportsSignIn_iff_of_known hs (Option.isSome_iff_ne_none.mpr hk) ho]
        simp [SignsInProperly, ht, hk, Option.isSome_iff_ne_none]

def newUserSignsIn : SignInResults where
  providers := none
  signIn := some ⟨"u", some "u@mail.com", some "name", some "photo"⟩

/-- The state in which a login asks for the email: its dialog has granted a token. -/
def tokenGranted (ids : List Uid) : Service :=
  { launch none ids with currentAccessToken := some "token" }

theorem new_user_reported :
    ∃ h s', machine.exec [] ((tokenGranted []).emailKnown 0 (some "u@mail.com"))
        ((tokenGranted []).signinEvents "today" (some "u@mail.com") newUserSignsIn) =
          some (h, s') ∧
      ReportsSignIn newUserSignsIn h s' := by
  obtain ⟨h, s', he, hiff⟩ := facebook_signin_reports_iff (s := tokenGranted []) rfl 0 "today"
    (some "u@mail.com") newUserSignsIn
  refine ⟨h, s', he, hiff.mpr ⟨rfl, rfl, fun hp => ?_, fun _ user hu => ?_⟩⟩
  · cases hp
  · cases hu
    decide

def knownUserFails : SignInResults where
  providers := some ["facebook.com"]
  signIn := none

theorem failed_signin_reports_success : ¬ ∀ s : Service, s.raised = none → ∀ i t email r h s',
    machine.exec [] (s.emailKnown i email) (s.signinEvents t email r) = some (h, s') →
      ReportsSignIn r h s' := by
  intro hall
  let s := tokenGranted ["u"]
  let x := (machine.exec [] (s.emailKnown 0 (some "u@mail.com"))
    (s.signinEvents "" (some "u@mail.com") knownUserFails)).get (by decide)
  obtain ⟨-, ⟨-, user, hu, -⟩ | ⟨status, hne, hm, -⟩⟩ :=
    hall s rfl 0 "" _ knownUserFails x.1 x.2 (Machine.exec_eq_get _)
  · cases hu
  · have hone : (effectsOf x.1).filterMap Effect.message = [.loginFbWithStatus 1] := by decide
    obtain rfl : 1 = status := by simpa using hone.symm.trans hm
    exact hne rfl

end Service

end Mioto
