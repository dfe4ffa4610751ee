import Mioto.ServiceMachine

/-! Inversion of the service steps, and what each of them does to the cache. -/

namespace Mioto

namespace Service

theorem eraseIdx_concat_length {α : Type} (l : List α) (x : α) :
    (l ++ [x]).eraseIdx l.length = l := by
  induction l with
  | nil => rfl
  | cons y l ih => simp [ih]

/-! ### One inversion for each kind of event -/

theorem step_call {s : Service} {i : ScreenId} {t : String} {c : Call} {r : Done}
    (h : s.step (.call i t c) = some r) : s.raised = none ∧ s.call i t c = r := by
  simp only [step] at h
  split_ifs at h with hr
  exact ⟨by simpa using hr, by simpa using h⟩

theorem step_answer {s : Service} {k : Nat} {q : Reply} {r : Done}
    (h : s.step (.answer k q) = some r) :
    s.raised = none ∧ ∃ p, s.pending[k]? = some p ∧ s.answers p.request q ∧
      (refuses p.request q = false ∧ (s.answer k p.caller q, []) = r ∨
        refuses p.request q = true ∧
          { s with pending := s.pending.eraseIdx k }.raise .noAccessToken = r) := by
  simp only [step] at h
  split_ifs at h with hr
  obtain ⟨p, hp, h⟩ := Option.bind_eq_some_iff.mp h
  split_ifs at h with ha hq <;> obtain rfl := Option.some.inj h
  · exact ⟨by simpa using hr, p, hp, ha, .inr ⟨hq, rfl⟩⟩
  · exact ⟨by simpa using hr, p, hp, ha, .inl ⟨by simpa using hq, rfl⟩⟩

theorem refuses_eq_true {q : Request} {r : Reply} (h : refuses q r = true) :
    (∃ known, q = .signInFacebook none known) ∨
      ∃ user starter dialog, q = .linkFacebook user none starter dialog := by
  unfold refuses at h
  split at h
  · exact .inl ⟨_, rfl⟩
  · exact .inr ⟨_, _, _, rfl⟩
  · cases h

theorem step_complete {s : Service} {k : Nat} {t : String} {r : Done}
    (h : s.step (.complete k t) = some r) :
    s.raised = none ∧ ∃ w, s.replies[k]? = some w ∧ s.complete k t w = r := by
  simp only [step] at h
  split_ifs at h with hr
  obtain ⟨w, hw, h⟩ := Option.map_eq_some_iff.mp h
  exact ⟨by simpa using hr, w, hw, h⟩

theorem step_dialog {s : Service} {k : Nat} {q : DialogResult} {r : Done}
    (h : s.step (.dialog k q) = some r) :
    s.raised = none ∧ ∃ p, s.pending[k]? = some p ∧ s.closeDialog k q p = some r := by
  simp only [step] at h
  split_ifs at h with hr
  exact ⟨by simpa using hr, Option.bind_eq_some_iff.mp h⟩

theorem step_childAdded {s : Service} {o : Nat} {v : Uid} {r : Done}
    (h : s.step (.childAdded o v) = some r) :
    s.raised = none ∧ ∃ ob, s.observers[o]? = some ob ∧ s.reportChild o v ob = some r := by
  simp only [step] at h
  split_ifs at h with hr
  exact ⟨by simpa using hr, Option.bind_eq_some_iff.mp h⟩

theorem closeDialog_eq_some {s : Service} {k : Nat} {q : DialogResult} {p : Pending} {r : Done}
    (h : s.closeDialog k q p = some r) :
    (p.request = .loginDialog ∧
      { s with pending := s.pending.eraseIdx k }.loginHandler p.caller q = r) ∨
    ∃ starter, p.request = .linkDialog starter ∧
      { s with pending := s.pending.eraseIdx k }.linkHandler p.caller starter q = r := by
  unfold closeDialog at h
  split at h
  · next hp => exact .inl ⟨hp, by simpa using h⟩
  · next starter hp => exact .inr ⟨starter, hp, by simpa using h⟩
  · simp at h

theorem reportChild_eq_some {s : Service} {o : Nat} {v : Uid} {ob : Observer} {r : Done}
    (h : s.reportChild o v ob = some r) :
    v ∉ ob.reported ∧ s.users v ≠ .null ∧
      { s with observers := s.observers.set o { ob with reported := ob.reported ++ [v] }
        }.childAdded ob (s.users v) = r := by
  unfold reportChild at h
  split_ifs at h with hc
  rw [not_or] at hc
  exact ⟨hc.1, hc.2, by simpa using h⟩

/-! ### A message after a method -/

@[simp] theorem andThen_send_fst (r : Done) (m : Message) : (andThen r (·.send m)).1 = r.1 := by
  unfold andThen Sequence.andThen
  split <;> rfl

theorem andThen_send_of_go {r : Done} (h : r.1.raised = none) (m : Message) :
    andThen r (·.send m) = (r.1, r.2 ++ [.send m]) :=
  Sequence.andThen_of_go _ (by simp [h]) _

theorem andThen_send_of_stop {r : Done} (h : r.1.raised ≠ none) (m : Message) :
    andThen r (·.send m) = r :=
  Sequence.andThen_of_stop (fun s : Service => s.raised.isSome)
    (Option.isSome_iff_ne_none.mpr h) _

/-! ### The two whole-record writes -/

theorem isSome_savedRecord_iff {uid t : String}
    {email name dob gender img number fb em : Option String} :
    (∀ k, (savedRecord uid t email name dob gender img number fb em k).isSome) ↔
      email.isSome ∧ name.isSome ∧ dob.isSome ∧ gender.isSome ∧ img.isSome ∧ number.isSome ∧
        fb.isSome ∧ em.isSome := by
  constructor
  · intro h
    exact ⟨h .mUserEmail, h .mUserName, h .mUserDateOfBirth, h .mUserGender, h .mUserImgUrl,
      h .mUserPhone, h .mFBLinking, h .mEmailLinking⟩
  · intro h k
    cases k <;> simp [savedRecord, h]

theorem saveDataWithEmail_cases (s : Service) (t : String)
    (email name dob gender img number fb em : Option String) :
    (∃ x, (∀ uid, s.currentUser = some uid →
        ¬ ∀ k, (savedRecord uid t email name dob gender img number fb em k).isSome) ∧
      s.saveDataWithEmail t email name dob gender img number fb em = s.raise x) ∨
    ∃ uid, s.currentUser = some uid ∧
      (∀ k, (savedRecord uid t email name dob gender img number fb em k).isSome) ∧
      s.saveDataWithEmail t email name dob gender img number fb em =
        s.setRecord uid (savedRecord uid t email name dob gender img number fb em) := by
  unfold saveDataWithEmail
  cases hu : s.currentUser with
  | none => exact .inl ⟨_, by simp, rfl⟩
  | some uid =>
    cases hd : dictionaryLiteral (savedRecord uid t email name dob gender img number fb em) with
    | none =>
      refine .inl ⟨.nilInDictionary, ?_, by simp only [hd]⟩
      rintro uid' hu' hc
      obtain rfl := Option.some.inj hu'
      obtain ⟨k, hk⟩ := dictionaryLiteral_eq_none.mp hd
      exact absurd (hc k) (by simp [hk])
    | some d =>
      obtain ⟨rfl, hc⟩ := dictionaryLiteral_eq_some.mp hd
      exact .inr ⟨uid, rfl, hc, by simp only [hd]⟩

/-- Nothing is missing when every argument is a string. -/
theorem saveDataWithEmail_of_strings {s : Service} {u : Uid} (hu : s.currentUser = some u)
    (t email name dob gender img number fb em : String) :
    s.saveDataWithEmail t (some email) (some name) (some dob) (some gender) (some img)
        (some number) (some fb) (some em) =
      s.setRecord u (savedRecord u t (some email) (some name) (some dob) (some gender) (some img)
        (some number) (some fb) (some em)) := by
  have hlit : dictionaryLiteral (savedRecord u t (some email) (some name) (some dob)
      (some gender) (some img) (some number) (some fb) (some em)) = some _ :=
    dictionaryLiteral_eq_some.mpr ⟨rfl, fun k => by cases k <;> rfl⟩
  simp only [saveDataWithEmail, hu, hlit]

theorem updateDataWithName_cases (s : Service) (name dob gender img number : String) :
    (∃ x, s.updateDataWithName name dob gender img number = s.raise x) ∨
    ∃ uid, s.currentUser = some uid ∧
      (∀ k, (updatedRecord uid s.newUser name dob gender number k).isSome) ∧
      s.updateDataWithName name dob gender img number =
        s.setRecord uid (updatedRecord uid s.newUser name dob gender number) := by
  unfold updateDataWithName
  cases hu : s.currentUser with
  | none => exact .inl ⟨_, rfl⟩
  | some uid =>
    cases hd : dictionaryLiteral (updatedRecord uid s.newUser name dob gender number) with
    | none => exact .inl ⟨.nilInDictionary, by simp only [hd]⟩
    | some d =>
      obtain ⟨rfl, hc⟩ := dictionaryLiteral_eq_some.mp hd
      exact .inr ⟨uid, rfl, hc, by simp only [hd]⟩

/-! ### One case for each branch -/

/-- What a method does when a screen calls it. -/
inductive Called (s : Service) (i : ScreenId) (t : String) : Call → Done → Prop
  | unsaved {email name dob gender img number fb em : Option String} (x : Exn) :
      Called s i t (.saveDataWithEmail email name dob gender img number fb em) (s.raise x)
  | saved {email name dob gender img number fb em : Option String} {uid : Uid}
      (hu : s.currentUser = some uid)
      (hc : ∀ k, (savedRecord uid t email name dob gender img number fb em k).isSome) :
      Called s i t (.saveDataWithEmail email name dob gender img number fb em)
        (s.setRecord uid (savedRecord uid t email name dob gender img number fb em))
  | notUpdated {name dob gender img number : String} (x : Exn) :
      Called s i t (.updateDataWithName name dob gender img number) (s.raise x)
  | updated {name dob gender img number : String} {uid : Uid} (hu : s.currentUser = some uid)
      (hc : ∀ k, (updatedRecord uid s.newUser name dob gender number k).isSome) :
      Called s i t (.updateDataWithName name dob gender img number)
        (s.setRecord uid (updatedRecord uid s.newUser name dob gender number))
  | notFetching (hu : s.currentUser = none) : Called s i t .fetchData (s.raise .invalidPath)
  | fetching {uid : Uid} (hu : s.currentUser = some uid) :
      Called s i t .fetchData (s.request i (.fetch uid), [])
  | observing : Called s i t .fetchAllData
      ({ s with observers := s.observers ++ [⟨s.currentUser, [], i⟩] }, [])
  | uploading (image : String) : Called s i t (.uploadProfileImage image)
      (s.request i (.putData s.currentUser image), [])
  | loggingIn : Called s i t .loginWithFacebook
      ({ s with currentAccessToken := none }.request i .loginDialog, [])
  | linkingFB : Called s i t .fbLinking (s.request i (.linkDialog s.currentUser), [])
  | notLinking {password : String} (hu : s.currentUser = none) :
      Called s i t (.emailLinking password) (s, [])
  | linkingGG {password : String} {user : Uid} (hu : s.currentUser = some user) :
      Called s i t (.emailLinking password)
        (s.request i (.linkEmail user (s.newUser.bind Profile.mUserEmail)),
          [.linkEmail user (s.newUser.bind Profile.mUserEmail) password])
  | signingUp (email pass username : String) : Called s i t (.signupWithEmail email pass username)
      (s.request i (.createUser email pass username), [])
  | signingIn (email pass : String) : Called s i t (.signinWithEmail email pass)
      (s.request i (.signIn email pass), [])
  | resetting (email : String) : Called s i t (.resetPasswordWithEmail email)
      (s.request i (.resetPassword email), [])
  | notLoggedOut {keychain : Bool} (h : (s.currentUser.isSome && !keychain) = true) :
      Called s i t (.logout keychain) (s.send (.authStatus 0))
  | loggedOut {keychain : Bool} (h : (s.currentUser.isSome && !keychain) = false) :
      Called s i t (.logout keychain) ({ s with currentUser := none }.send (.authStatus 1))

theorem called (s : Service) (i : ScreenId) (t : String) (c : Call) :
    Called s i t c (s.call i t c) := by
  cases c with
  | saveDataWithEmail email name dob gender img number fb em =>
    rcases s.saveDataWithEmail_cases t email name dob gender img number fb em with
      ⟨x, -, he⟩ | ⟨uid, hu, hc, he⟩ <;> simp only [call, he]
    · exact .unsaved x
    · exact .saved hu hc
  | updateDataWithName name dob gender img number =>
    rcases s.updateDataWithName_cases name dob gender img number with
      ⟨x, he⟩ | ⟨uid, hu, hc, he⟩ <;> simp only [call, he]
    · exact .notUpdated x
    · exact .updated hu hc
  | fetchData =>
    simp only [call, fetchData]
    cases hu : s.currentUser with
    | none => exact .notFetching hu
    | some uid => exact .fetching hu
  | emailLinking password =>
    simp only [call, emailLinking]
    cases hu : s.currentUser with
    | none => exact .notLinking hu
    | some user => exact .linkingGG hu
  | logout keychain =>
    simp only [call, logout]
    split_ifs with h
    · exact .notLoggedOut h
    · exact .loggedOut (by simpa using h)
  | fetchAllData => exact .observing
  | uploadProfileImage image => exact .uploading image
  | loginWithFacebook => exact .loggingIn
  | fbLinking => exact .linkingFB
  | signupWithEmail email pass username => exact .signingUp email pass username
  | signinWithEmail email pass => exact .signingIn email pass
  | resetPasswordWithEmail email => exact .resetting email

/-- What the completion block of a reply does. -/
inductive Completed (s : Service) (t : String) (i : ScreenId) : Reply → Done → Prop
  | fetched {u : Uid} (d : Dict) : Completed s t i (.fetched u (.dict d))
      ({ s with newUser := some (transformUser d) }.send (.profileDataRecieved 1))
  | notDictionary {u : Uid} {n : Node} (hn : ∀ d, n ≠ .dict d) :
      Completed s t i (.fetched u n) (s.raise .unrecognizedSelector)
  | fetchCancelled {u : Uid} :
      Completed s t i (.fetchCancelled u) (s.send (.profileDataRecieved 0))
  | putFailed {u : Option Uid} :
      Completed s t i (.putData u true) (s.send (.uploadProfileImageStatus 0))
  | put {u : Option Uid} : Completed s t i (.putData u false) (s.request i (.downloadURL u), [])
  | noURL {u : Option Uid} : Completed s t i (.downloadURL u none) (s, [])
  | imageUnsaved {u : Option Uid} {token : String} (hu : s.currentUser = none) :
      Completed s t i (.downloadURL u (some token))
        ({ s with mDownloadedURL := some (storageURL u token) }.raise .invalidPath)
  | imageSaved {u : Option Uid} {token : String} {uid : Uid} (hu : s.currentUser = some uid) :
      Completed s t i (.downloadURL u (some token))
        (({ s with mDownloadedURL := some (storageURL u token) }.setField uid .mUserImgUrl
            (some (storageURL u token))).1,
          [.setField uid .mUserImgUrl (some (storageURL u token)),
            .send (.uploadProfileImageStatus 1)])
  | graphFailed : Completed s t i (.graphMe none) (s, [])
  | noEmail : Completed s t i (.graphMe (some none)) (s.raise .nilInDictionary)
  | emailFound (email : String) : Completed s t i (.graphMe (some (some email)))
      (s.request i (.fetchProviders email s.currentAccessToken), [])
  | providers {credential : Option Token} {providers : Option (List String)} :
      Completed s t i (.providers credential providers)
        (s.request i (.signInFacebook credential providers.isSome), [])
  | known {result : Option FIRUser} :
      Completed s t i (.signedInFacebook true result) (s.send (.loginFbWithStatus 1))
  | signInFailed :
      Completed s t i (.signedInFacebook false none) (s.send (.loginFbWithStatus (-1)))
  | unregistered {user : FIRUser} (x : Exn)
      (h : ¬ (s.currentUser.isSome ∧ user.email.isSome ∧ user.displayName.isSome ∧
        user.photoURL.isSome)) :
      Completed s t i (.signedInFacebook false (some user)) (s.raise x)
  | registered {user : FIRUser} {uid : Uid} {d : Dict} (hu : s.currentUser = some uid)
      (hd : d = savedRecord uid t user.email user.displayName (some unchosen) (some unchosen)
        (user.photoURL.map (· ++ "?type=large")) (some unchosen) (some "true") (some "false"))
      (hc : user.email.isSome ∧ user.displayName.isSome ∧ user.photoURL.isSome) :
      Completed s t i (.signedInFacebook false (some user))
        ((s.setRecord uid d).1, [.setRecord uid d, .send (.loginFbWithStatus 1)])
  | fbLinkFailed {user : Uid} {starter : Option Uid} {dialog : DialogResult} :
      Completed s t i (.linkedFacebook user starter dialog true) (s.send (.linkingFBStatus 0))
  | fbUnlinked {user : Uid} {starter : Option Uid} {dialog : DialogResult}
      (hu : s.currentUser = none) :
      Completed s t i (.linkedFacebook user starter dialog false) (s.raise .invalidPath)
  | fbLinked {user uid : Uid} {starter : Option Uid} {dialog : DialogResult}
      (hu : s.currentUser = some uid) :
      Completed s t i (.linkedFacebook user starter dialog false)
        ((s.setField uid .mFBLinking (some "true")).1,
          [.setField uid .mFBLinking (some "true"), .send (.linkingFBStatus 1)])
  | ggLinkFailed {user : Uid} :
      Completed s t i (.linkedEmail user true) (s.send (.linkingGGStatus 0))
  | ggUnlinked {user : Uid} (hu : s.currentUser = none) :
      Completed s t i (.linkedEmail user false) (s.raise .invalidPath)
  | ggLinked {user uid : Uid} (hu : s.currentUser = some uid) :
      Completed s t i (.linkedEmail user false)
        ((s.setField uid .mEmailLinking (some "true")).1,
          [.setField uid .mEmailLinking (some "true"), .send (.linkingGGStatus 1)])
  | created {email username : String} {result : Option Uid} :
      Completed s t i (.createdUser email username result)
        (s.send (.authStatus (if result.isNone then 0 else 1)))
  | signedIn {result : Option Uid} :
      Completed s t i (.signedIn result) (s.send (.authStatus (if result.isNone then 0 else 1)))
  | resetSent {error : Bool} :
      Completed s t i (.resetSent error) (s.send (.authStatus (if error then 0 else 1)))

theorem completed {s : Service} (hs : s.raised = none) (t : String) (i : ScreenId) (r : Reply) :
    Completed s t i r (s.completion t i r) := by
  cases r with
  | fetched u n =>
    cases n with
    | dict d => exact .fetched d
    | null | leaf => exact .notDictionary (by simp)
  | fetchCancelled u => exact .fetchCancelled
  | putData u error =>
    cases error
    · exact .put
    · exact .putFailed
  | downloadURL u token =>
    cases token with
    | none => exact .noURL
    | some token =>
      simp only [completion, saveImg]
      split
      · next hu =>
        rw [andThen_send_of_stop (by simp [raise])]
        exact .imageUnsaved hu
      · next uid hu =>
        rw [andThen_send_of_go (by simpa [setField] using hs)]
        exact .imageSaved hu
  | graphMe result =>
    rcases result with _ | _ | email
    · exact .graphFailed
    · exact .noEmail
    · exact .emailFound email
  | providers credential providers => exact .providers
  | signedInFacebook known result =>
    cases known with
    | true => exact .known
    | false =>
      cases result with
      | none => exact .signInFailed
      | some user =>
        simp only [completion, registerFacebook]
        rcases s.saveDataWithEmail_cases t user.email user.displayName (some unchosen)
          (some unchosen) (user.photoURL.map (· ++ "?type=large")) (some unchosen) (some "true")
          (some "false") with ⟨x, hx, he⟩ | ⟨uid, hu, hc, he⟩ <;> rw [he]
        · rw [andThen_send_of_stop (by simp [raise])]
          refine .unregistered x fun h => ?_
          obtain ⟨uid, hu⟩ := Option.isSome_iff_exists.mp h.1
          exact hx uid hu (isSome_savedRecord_iff.mpr (by simp [h]))
        · rw [andThen_send_of_go (by simpa [setRecord] using hs)]
          exact .registered hu rfl (by simpa using isSome_savedRecord_iff.mp hc)
  | linkedFacebook user starter dialog error =>
    simp only [completion, linkFlag]
    cases error with
    | true => exact .fbLinkFailed
    | false =>
      cases hu : s.currentUser with
      | none => exact .fbUnlinked hu
      | some uid =>
        simp only [Bool.false_eq_true, if_false]
        rw [andThen_send_of_go (by simpa [setField] using hs)]
        exact .fbLinked hu
  | linkedEmail user error =>
    simp only [completion, linkFlag]
    cases error with
    | true => exact .ggLinkFailed
    | false =>
      cases hu : s.currentUser with
      | none => exact .ggUnlinked hu
      | some uid =>
        simp only [Bool.false_eq_true, if_false]
        rw [andThen_send_of_go (by simpa [setField] using hs)]
        exact .ggLinked hu
  | createdUser email username result => exact .created
  | signedIn result => exact .signedIn
  | resetSent error => exact .resetSent

/-- What the handler of a dialog does. -/
inductive Closed (s : Service) (i : ScreenId) : Request → DialogResult → Done → Prop
  | loginError : Closed s i .loginDialog .error (s.send (.loginFbWithStatus 0))
  | loginCancelled (ht : s.currentAccessToken.isSome = false) :
      Closed s i .loginDialog .cancelled (s, [])
  | loginResumed (ht : s.currentAccessToken.isSome) :
      Closed s i .loginDialog .cancelled (s.request i .graphMe, [])
  | loginGranted (token : Token) : Closed s i .loginDialog (.granted token)
      ({ s with currentAccessToken := some token }.request i .graphMe, [])
  | linkError {starter : Option Uid} :
      Closed s i (.linkDialog starter) .error (s.send (.loginFbWithStatus 0))
  | linkCancelled {starter : Option Uid} (hu : s.currentUser = none) :
      Closed s i (.linkDialog starter) .cancelled (s, [])
  | linkResumed {starter : Option Uid} {user : Uid} (hu : s.currentUser = some user) :
      Closed s i (.linkDialog starter) .cancelled
        (s.request i (.linkFacebook user s.currentAccessToken starter .cancelled),
          [.linkFacebook user s.currentAccessToken])
  | linkUnasked {starter : Option Uid} (token : Token) (hu : s.currentUser = none) :
      Closed s i (.linkDialog starter) (.granted token)
        ({ s with currentAccessToken := some token }, [])
  | linkGranted {starter : Option Uid} (token : Token) {user : Uid}
      (hu : s.currentUser = some user) :
      Closed s i (.linkDialog starter) (.granted token)
        ({ s with currentAccessToken := some token }.request i
            (.linkFacebook user (some token) starter (.granted token)),
          [.linkFacebook user (some token)])

theorem closed {s : Service} {k : Nat} {q : DialogResult} {p : Pending} {r : Done}
    (h : s.closeDialog k q p = some r) :
    Closed { s with pending := s.pending.eraseIdx k } p.caller p.request q r := by
  rcases closeDialog_eq_some h with ⟨hp, rfl⟩ | ⟨starter, hp, rfl⟩ <;> rw [hp]
  · cases q with
    | error => exact .loginError
    | cancelled =>
      simp only [loginHandler]
      split_ifs with ht
      · exact .loginResumed ht
      · exact .loginCancelled (by simpa using ht)
    | granted token => exact .loginGranted token
  · cases q with
    | error => exact .linkError
    | cancelled =>
      simp only [linkHandler, linkCurrentToken]
      split
      · next hu => exact .linkCancelled hu
      · next user hu => exact .linkResumed hu
    | granted token =>
      simp only [linkHandler, linkCurrentToken]
      split
      · next hu => exact .linkUnasked token hu
      · next user hu => exact .linkGranted token hu

/-- What an observer of `fetchAllData` does with a child. -/
inductive ChildTold (s : Service) (ob : Observer) : Node → Done → Prop
  | accepted {d : Dict} (ha : ob.accepts d) : ChildTold s ob (.dict d)
      ({ s with newUser := some (transformUser d) }.send (.successProfileWith (transformUser d)))
  | ignored {d : Dict} (ha : ob.accepts d = false) : ChildTold s ob (.dict d) (s, [])
  | notDictionary {n : Node} (hn : ∀ d, n ≠ .dict d) :
      ChildTold s ob n (s.raise .unrecognizedSelector)

theorem childTold (s : Service) (ob : Observer) (n : Node) :
    ChildTold s ob n (s.childAdded ob n) := by
  cases n with
  | dict d =>
    simp only [childAdded]
    split_ifs with ha
    · exact .accepted ha
    · exact .ignored (by simpa using ha)
  | null | leaf => exact .notDictionary (by simp)

/-- What a step does. -/
inductive Stepped (s : Service) : ServiceEvent → Done → Prop
  | called {i : ScreenId} {t : String} {c : Call} {r : Done} (h : Called s i t c r) :
      Stepped s (.call i t c) r
  | answered {k : Nat} {q : Reply} {p : Pending} (hp : s.pending[k]? = some p)
      (ha : s.answers p.request q) (hq : refuses p.request q = false) :
      Stepped s (.answer k q) (s.answer k p.caller q, [])
  | refused {k : Nat} {q : Reply} {p : Pending} (hp : s.pending[k]? = some p)
      (ha : s.answers p.request q) (hq : refuses p.request q = true) :
      Stepped s (.answer k q) ({ s with pending := s.pending.eraseIdx k }.raise .noAccessToken)
  | completed {k : Nat} {t : String} {w : Waiting} {r : Done} (hw : s.replies[k]? = some w)
      (h : Completed { s with replies := s.replies.eraseIdx k } t w.caller w.reply r) :
      Stepped s (.complete k t) r
  | closed {k : Nat} {q : DialogResult} {p : Pending} {r : Done} (hp : s.pending[k]? = some p)
      (h : Closed { s with pending := s.pending.eraseIdx k } p.caller p.request q r) :
      Stepped s (.dialog k q) r
  | told {o : Nat} {v : Uid} {ob : Observer} {r : Done} (hob : s.observers[o]? = some ob)
      (hv : v ∉ ob.reported) (hn : s.users v ≠ .null)
      (h : ChildTold { s with
        observers := s.observers.set o { ob with reported := ob.reported ++ [v] } } ob
        (s.users v) r) : Stepped s (.childAdded o v) r
  | remoteRecord {u : Uid} {d : Dict} : Stepped s (.remoteRecord u d)
      ({ s with users := Function.update s.users u (.ofDict d) }, [])
  | remoteField {u : Uid} {k : Key} {v : Option String} : Stepped s (.remoteField u k v)
      ({ s with users := Function.update s.users u ((s.users u).setField k v) }, [])

theorem stepped {s : Service} {e : ServiceEvent} {r : Done} (h : s.step e = some r) :
    s.raised = none ∧ Stepped s e r := by
  cases e with
  | call i t c =>
    obtain ⟨hs, rfl⟩ := step_call h
    exact ⟨hs, .called (s.called i t c)⟩
  | answer k q =>
    obtain ⟨hs, p, hp, ha, ⟨hq, rfl⟩ | ⟨hq, rfl⟩⟩ := step_answer h
    · exact ⟨hs, .answered hp ha hq⟩
    · exact ⟨hs, .refused hp ha hq⟩
  | complete k t =>
    obtain ⟨hs, w, hw, rfl⟩ := step_complete h
    exact ⟨hs, .completed hw (completed (s := { s with replies := s.replies.eraseIdx k }) hs ..)⟩
  | dialog k q =>
    obtain ⟨hs, p, hp, hd⟩ := step_dialog h
    exact ⟨hs, .closed hp (closed hd)⟩
  | childAdded o v =>
    obtain ⟨hs, ob, hob, hr⟩ := step_childAdded h
    obtain ⟨hv, hn, rfl⟩ := reportChild_eq_some hr
    exact ⟨hs, .told hob hv hn (childTold ..)⟩
  | remoteRecord u d | remoteField u k v =>
    simp only [step] at h
    split_ifs at h with hs
    obtain rfl := Option.some.inj h
    exact ⟨by simpa using hs, by constructor⟩

/-! ### The cache

`newUser` is assigned by two blocks only: the completion of `fetchData` and the
observer of `fetchAllData`. -/

theorem Called.newUser {s : Service} {i : ScreenId} {t : String} {c : Call} {r : Done}
    (h : Called s i t c r) : r.1.newUser = s.newUser := by
  cases h <;> rfl

theorem Closed.newUser {s : Service} {i : ScreenId} {p : Request} {q : DialogResult} {r : Done}
    (h : Closed s i p q r) : r.1.newUser = s.newUser := by
  cases h <;> rfl

end Service

def Reply.fetchedRecord : Reply → Option (Uid × Dict)
  | .fetched uid (.dict d) => some (uid, d)
  | _ => none

namespace Service

/-- The record that an event fetches for an account and puts into the cache. -/
def fetches (s : Service) : ServiceEvent → Option (Uid × Dict)
  | .complete k _ => (s.replies[k]?).bind (·.reply.fetchedRecord)
  | _ => none

def reports (s : Service) : ServiceEvent → Option Dict
  | .childAdded o v =>
    match s.observers[o]?, s.users v with
    | some ob, .dict d => if ob.accepts d then some d else none
    | _, _ => none
  | _ => none

theorem Completed.newUser {s : Service} {t : String} {i : ScreenId} {q : Reply} {r : Done}
    (h : Completed s t i q r) :
    r.1.newUser = q.fetchedRecord.elim s.newUser fun x => some (transformUser x.2) := by
  cases h with
  | @notDictionary u n hn =>
    cases n with
    | dict d => exact absurd rfl (hn d)
    | null | leaf => rfl
  | _ => rfl

theorem Completed.currentUser {s : Service} {t : String} {i : ScreenId} {q : Reply} {r : Done}
    (h : Completed s t i q r) : r.1.currentUser = s.currentUser := by
  cases h <;> rfl

theorem newUser_of_fetches {s s' : Service} {e : ServiceEvent} {o : List Effect} {x : Uid × Dict}
    (h : s.step e = some (s', o)) (hx : s.fetches e = some x) :
    s'.newUser = some (transformUser x.2) := by
  cases (stepped h).2 with
  | completed hw hc =>
    simp only [fetches, hw, Option.bind_some] at hx
    simpa [hx] using hc.newUser
  | _ => cases hx

theorem newUser_of_none {s s' : Service} {e : ServiceEvent} {o : List Effect}
    (h : s.step e = some (s', o)) (hf : s.fetches e = none) (hr : s.reports e = none) :
    s'.newUser = s.newUser := by
  cases (stepped h).2 with
  | called hc => exact hc.newUser
  | completed hw hc =>
    simp only [fetches, hw, Option.bind_some] at hf
    simpa [hf] using hc.newUser
  | closed _ hc => exact hc.newUser
  | @told o v ob _ hob _ _ hc =>
    simp only [reports, hob] at hr
    generalize s.users v = n at hc hr
    cases hc with
    | accepted ha => simp [ha] at hr
    | ignored | notDictionary => rfl
  | answered | refused | remoteRecord | remoteField => rfl

end Service

/-! ### Fields written by completions -/

def Reply.writtenField : Reply → Option (Key × Option String)
  | .downloadURL userID (some token) => some (.mUserImgUrl, some (Service.storageURL userID token))
  | .linkedFacebook _ _ _ false => some (.mFBLinking, some "true")
  | .linkedEmail _ false => some (.mEmailLinking, some "true")
  | _ => none

namespace Service

theorem Called.setField_not_mem {s : Service} {i : ScreenId} {t : String} {c : Call} {r : Done}
    (h : Called s i t c r) (uid : Uid) (k : Key) (v : Option String) :
    Effect.setField uid k v ∉ r.2 := by
  cases h <;> simp [raise, setRecord, send]

theorem Completed.setField_mem {s : Service} {t : String} {i : ScreenId} {q : Reply} {r : Done}
    (h : Completed s t i q r) {uid : Uid} {k : Key} {v : Option String} :
    Effect.setField uid k v ∈ r.2 ↔ s.currentUser = some uid ∧ q.writtenField = some (k, v) := by
  cases h with
  | imageUnsaved hu | fbUnlinked hu | ggUnlinked hu => simp [raise, hu]
  | imageSaved hu | fbLinked hu | ggLinked hu =>
    simp [hu, Reply.writtenField, eq_comm]
  | _ => simp [raise, send, Reply.writtenField]

theorem Closed.setField_not_mem {s : Service} {i : ScreenId} {p : Request} {q : DialogResult}
    {r : Done} (h : Closed s i p q r) (uid : Uid) (k : Key) (v : Option String) :
    Effect.setField uid k v ∉ r.2 := by
  cases h <;> simp [send]

theorem ChildTold.setField_not_mem {s : Service} {ob : Observer} {n : Node} {r : Done}
    (h : ChildTold s ob n r) (uid : Uid) (k : Key) (v : Option String) :
    Effect.setField uid k v ∉ r.2 := by
  cases h <;> simp [send, raise]

/-- The field that an event writes if somebody is signed in. -/
def writes (s : Service) : ServiceEvent → Option (Key × Option String)
  | .complete k _ => (s.replies[k]?).bind (·.reply.writtenField)
  | _ => none

theorem writes_eq_some {s : Service} {e : ServiceEvent} {x : Key × Option String}
    (h : s.writes e = some x) : ∃ k t w, e = .complete k t ∧ s.replies[k]? = some w ∧
      w.reply.writtenField = some x := by
  cases e <;> simp only [writes, reduceCtorEq] at h
  next k t =>
    obtain ⟨w, hw, hx⟩ := Option.bind_eq_some_iff.mp h
    exact ⟨k, t, w, rfl, hw, hx⟩

theorem setField_mem_out {s s' : Service} {e : ServiceEvent} {o : List Effect}
    (h : s.step e = some (s', o)) {uid : Uid} {k : Key} {v : Option String} :
    Effect.setField uid k v ∈ o ↔ s.currentUser = some uid ∧ s.writes e = some (k, v) := by
  cases (stepped h).2 with
  | called hc => simpa [writes] using hc.setField_not_mem uid k v
  | completed hw hc => simpa [writes, hw] using hc.setField_mem
  | closed _ hc => simpa [writes] using hc.setField_not_mem uid k v
  | told _ _ _ hc => simpa [writes] using hc.setField_not_mem uid k v
  | answered | refused | remoteRecord | remoteField => simp [writes]

end Service

end Mioto
