import Mioto.ServiceFrame

/-! One Facebook login, from the button to the end of its last callback: the
dialog, the Graph request for the email, the provider query and the sign-in. -/

namespace Mioto

namespace Service

/-- What the four asynchronous steps come back with. An error of the provider
query is not read by its block, which sees the list or nil. -/
structure LoginResults where
  dialog : DialogResult
  graph : Option (Option String)
  providers : Option (List String)
  signIn : Option FIRUser

/-- The events of one login. Each step follows the one before it, as long as
that one asks for another. -/
def loginEvents (s : Service) (i : ScreenId) (t : String) (r : LoginResults) : List ServiceEvent :=
  let p := s.pending.length
  let q := s.replies.length
  [.call i t .loginWithFacebook, .dialog p r.dialog] ++
    match r.dialog, r.graph with
    | .granted token, some (some _) =>
      [.answer p (.graphMe r.graph), .complete q t,
        .answer p (.providers (some token) r.providers), .complete q t,
        .answer p (.signedInFacebook r.providers.isSome r.signIn), .complete q t]
    | .granted _, _ => [.answer p (.graphMe r.graph), .complete q t]
    | _, _ => []

def facebookRecord (t : String) (user : FIRUser) : Dict :=
  savedRecord user.uid t user.email user.displayName (some unchosen) (some unchosen)
    (user.photoURL.map (· ++ "?type=large")) (some unchosen) (some "true") (some "false")

/-- The user for whom the login takes the branch of a new account and gets as far
as the write: the providers were nil, and no field of the record is. -/
def LoginResults.registers (r : LoginResults) : Option FIRUser :=
  match r with
  | ⟨.granted _, some (some _), none, some ⟨uid, some email, some name, some photo⟩⟩ =>
    some ⟨uid, some email, some name, some photo⟩
  | _ => none

theorem ofDict_facebookRecord (t : String) (user : FIRUser) :
    Node.ofDict (facebookRecord t user) = .dict (facebookRecord t user) :=
  Node.ofDict_of_isSome (k := .mUserID) rfl

theorem saveDataWithEmail_facebook {s : Service} (user : FIRUser) (t : String)
    (hu : s.currentUser = some user.uid) :
    s.saveDataWithEmail t user.email user.displayName (some unchosen) (some unchosen)
      (user.photoURL.map (· ++ "?type=large")) (some unchosen) (some "true") (some "false") =
    if user.email.isSome ∧ user.displayName.isSome ∧ user.photoURL.isSome then
      s.setRecord user.uid (facebookRecord t user)
    else s.raise .nilInDictionary := by
  have hl : dictionaryLiteral (facebookRecord t user) =
      if user.email.isSome ∧ user.displayName.isSome ∧ user.photoURL.isSome then
        some (facebookRecord t user) else none := by
    split_ifs with h
    · refine dictionaryLiteral_eq_some.mpr ⟨rfl, fun k => ?_⟩
      cases k <;> simp [facebookRecord, savedRecord, h]
    · rw [dictionaryLiteral_eq_none]
      by_contra hn
      push Not at hn
      refine h ⟨?_, ?_, ?_⟩
      · exact Option.isSome_iff_ne_none.mpr (hn .mUserEmail)
      · exact Option.isSome_iff_ne_none.mpr (hn .mUserName)
      · simpa [facebookRecord, savedRecord, Option.isSome_iff_ne_none] using hn .mUserImgUrl
  rw [facebookRecord] at hl
  simp only [saveDataWithEmail, hu, hl]
  split_ifs <;> rfl

/-- What the steps of a history did, in their order. -/
def effectsOf (h : ServiceHistory) : List Effect := h.reverse.flatMap (·.out)

/-- A request that is answered and completed. -/
theorem exec_round {s : Service} {q : Request} {r : Reply} (hs : s.raised = none)
    (ha : s.answers q r) (hq : refuses q r = false) (h : ServiceHistory) (i : ScreenId)
    (t : String) (es : List ServiceEvent) :
    ∃ h', machine.exec h (s.request i q)
        (.answer s.pending.length r :: .complete s.replies.length t :: es) =
      machine.exec h'
        ({ s with currentUser := (signedInBy r).or s.currentUser }.completion t i r).1 es ∧
      effectsOf h' = effectsOf h ++
        ({ s with currentUser := (signedInBy r).or s.currentUser }.completion t i r).2 := by
  have ha' : (s.request i q).answers q r := by
    rw [← ha]
    cases q <;> cases r <;> rfl
  have h₁ : machine.step (s.request i q) (.answer s.pending.length r) =
      some ({ s with
        currentUser := (signedInBy r).or s.currentUser
        replies := s.replies ++ [⟨r, i⟩] }, []) := by
    have hp : (s.request i q).pending[s.pending.length]? = some ⟨q, i⟩ :=
      List.getElem?_concat_length
    simp only [machine, step, hp, Option.bind_some, ha', if_true]
    simp [request, hs, hq, answer, eraseIdx_concat_length]
  have h₂ : machine.step { s with
        currentUser := (signedInBy r).or s.currentUser
        replies := s.replies ++ [⟨r, i⟩] } (.complete s.replies.length t) =
      some ({ s with currentUser := (signedInBy r).or s.currentUser }.completion t i r) := by
    simp [machine, step, hs, complete, eraseIdx_concat_length]
  refine ⟨_, (Machine.exec_cons h₁ h _).trans (Machine.exec_cons h₂ _ es), ?_⟩
  simp [effectsOf]

theorem completion_signIn (s : Service) (t : String) (i : ScreenId) (token : Token) (email : String)
    (providers : Option (List String)) (signIn : Option FIRUser) :
    let r : LoginResults := ⟨.granted token, some (some email), providers, signIn⟩
    let q := Reply.signedInFacebook providers.isSome signIn
    let s' := ({ s with currentUser := (signedInBy q).or s.currentUser }.completion t i q).1
    (r.registers = none → s'.users = s.users) ∧
      ∀ user, r.registers = some user → s'.currentUser = some user.uid ∧
        s'.users = Function.update s.users user.uid (.dict (facebookRecord t user)) := by
  cases providers with
  | some ps => exact ⟨fun _ => rfl, fun user hr => by cases hr⟩
  | none =>
    cases signIn with
    | none => exact ⟨fun _ => rfl, fun user hr => by cases hr⟩
    | some user =>
      obtain ⟨uid, mail, name, photo⟩ := user
      have hsave := saveDataWithEmail_facebook (s := { s with currentUser := some uid })
        ⟨uid, mail, name, photo⟩ t rfl
      simp only [Option.isSome_none, signedInBy, Option.some_or, completion, registerFacebook,
        andThen_send_fst]
      rw [hsave]
      cases mail <;> cases name <;> cases photo <;>
        simp [LoginResults.registers, raise, setRecord, ofDict_facebookRecord]

theorem exec_login (s : Service) (hs : s.raised = none) (i : ScreenId) (t : String)
    (r : LoginResults) :
    ∃ h s', machine.exec [] s (s.loginEvents i t r) = some (h, s') ∧
      (r.registers = none → s'.users = s.users) ∧
        ∀ user, r.registers = some user → s'.currentUser = some user.uid ∧
          s'.users = Function.update s.users user.uid (.dict (facebookRecord t user)) := by
  obtain ⟨dialog, graph, providers, signIn⟩ := r
  cases dialog with
  | error | cancelled =>
    simp [loginEvents, Machine.exec, machine, step, hs, call, loginWithFacebook, request,
      closeDialog, eraseIdx_concat_length, loginHandler, send, LoginResults.registers]
  | granted token =>
    -- The button and the dialog leave the token current and a Graph request open.
    have h₁ : machine.step s (.call i t .loginWithFacebook) =
        some ({ s with currentAccessToken := none }.request i .loginDialog, []) := by
      simp [machine, step, hs, call, loginWithFacebook]
    have h₂ : machine.step ({ s with currentAccessToken := none }.request i .loginDialog)
        (.dialog s.pending.length (.granted token)) =
        some ({ s with currentAccessToken := some token }.request i .graphMe, []) := by
      simp [machine, step, hs, request, closeDialog, eraseIdx_concat_length, loginHandler]
    have h₃ : ∀ es, ∃ h', machine.exec [] s (.call i t .loginWithFacebook ::
        .dialog s.pending.length (.granted token) :: es) =
        machine.exec h' ({ s with currentAccessToken := some token }.request i .graphMe) es :=
      fun es => ⟨_, (Machine.exec_cons h₁ [] _).trans (Machine.exec_cons h₂ _ es)⟩
    rcases graph with _ | _ | email
    · obtain ⟨h, he⟩ := h₃ [.answer s.pending.length (.graphMe none), .complete s.replies.length t]
      obtain ⟨h', he', -⟩ := exec_round (s := { s with currentAccessToken := some token })
        (q := .graphMe) (r := .graphMe none) hs rfl rfl h i t []
      exact ⟨_, _, he.trans he', fun _ => rfl, fun user hr => by cases hr⟩
    · obtain ⟨h, he⟩ := h₃ [.answer s.pending.length (.graphMe (some none)),
        .complete s.replies.length t]
      obtain ⟨h', he', -⟩ := exec_round (s := { s with currentAccessToken := some token })
        (q := .graphMe) (r := .graphMe (some none)) hs rfl rfl h i t []
      exact ⟨_, _, he.trans he', fun _ => rfl, fun user hr => by cases hr⟩
    · obtain ⟨h, he⟩ := h₃
        [.answer s.pending.length (.graphMe (some (some email))), .complete s.replies.length t,
          .answer s.pending.length (.providers (some token) providers),
          .complete s.replies.length t,
          .answer s.pending.length (.signedInFacebook providers.isSome signIn),
          .complete s.replies.length t]
      obtain ⟨hg, heg, -⟩ := exec_round (s := { s with currentAccessToken := some token })
        (q := .graphMe) (r := .graphMe (some (some email))) hs rfl rfl h i t _
      obtain ⟨hp, hep, -⟩ := exec_round (s := { s with currentAccessToken := some token })
        (q := .fetchProviders email (some token)) (r := .providers (some token) providers)
        hs (by simp [answers]) rfl hg i t _
      obtain ⟨_, hes, -⟩ := exec_round (s := { s with currentAccessToken := some token })
        (q := .signInFacebook (some token) providers.isSome)
        (r := .signedInFacebook providers.isSome signIn) hs (by simp [answers]) rfl hp i t []
      exact ⟨_, _, he.trans (heg.trans (hep.trans hes)),
        completion_signIn { s with currentAccessToken := some token } t i token email providers
          signIn⟩

/-- The record of the user who is signed in at the end of a login is left exactly
as it was, unless the login registered that user over another record. -/
theorem facebook_login_keeps_record_iff {s : Service} (hs : s.raised = none) (i : ScreenId)
    (t : String) (r : LoginResults) :
    ∃ h s', machine.exec [] s (s.loginEvents i t r) = some (h, s') ∧
      ((∀ u, s'.currentUser = some u → s.users u ≠ .null → s'.users u = s.users u) ↔
        ∀ user, r.registers = some user →
          s.users user.uid = .null ∨ s.users user.uid = .dict (facebookRecord t user)) := by
  obtain ⟨h, s', he, hkeep, hwrite⟩ := exec_login s hs i t r
  refine ⟨h, s', he, ?_⟩
  cases hr : r.registers with
  | none => simp [hkeep hr]
  | some user =>
    obtain ⟨hu, hw⟩ := hwrite user hr
    simp only [hu, hw, Option.some.injEq, forall_eq', Function.update_self]
    constructor
    · intro hk
      by_cases hn : s.users user.uid = .null
      · exact .inl hn
      · exact .inr (hk hn).symm
    · rintro (hn | hn) hne
      · exact absurd hn hne
      · exact hn.symm

def logsIn (u : Uid) (providers : Option (List String)) : LoginResults where
  dialog := .granted "token"
  graph := some (some (u ++ "@mail.com"))
  providers := providers
  signIn := some ⟨u, some (u ++ "@mail.com"), some u, some "photo"⟩

theorem known_login_keeps_record :
    let s := launch none ["u"]
    let r := (machine.exec [] s (s.loginEvents 0 "" (logsIn "u" (some ["password"])))).get
      (by decide)
    r.2.currentUser = some "u" ∧ s.users "u" = .dict (signupRecord "u") ∧
      ∀ u, r.2.currentUser = some u → s.users u ≠ .null → r.2.users u = s.users u := by
  intro s r
  refine ⟨rfl, rfl, ?_⟩
  obtain ⟨h, s', he, hk⟩ := facebook_login_keeps_record_iff (s := s) rfl 0 ""
    (logsIn "u" (some ["password"]))
  have hr : r = (h, s') := Option.some.inj ((Option.some_get _).trans he)
  rw [hr]
  exact hk.mpr fun user hu => by cases hu

theorem failed_query_resets_record : ¬ ∀ s : Service, s.raised = none → ∀ i t r h s',
    machine.exec [] s (s.loginEvents i t r) = some (h, s') →
    ∀ u, s'.currentUser = some u → s.users u ≠ .null → s'.users u = s.users u := by
  intro hall
  let s := launch none ["u"]
  let r := (machine.exec [] s (s.loginEvents 0 "" (logsIn "u" none))).get (by decide)
  have hk := hall s rfl 0 "" (logsIn "u" none) r.1 r.2 (Machine.exec_eq_get _) "u" rfl
    (by decide)
  exact absurd hk (by decide)

end Service

end Mioto
