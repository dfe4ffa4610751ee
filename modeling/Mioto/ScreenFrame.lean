import Mioto.Screens

/-! What the methods of the screens can run, told once. A class has a method for few
messages, and of these methods only the end of a sign-up calls a service. -/

namespace Mioto

/-- The methods of the listener protocols that a class implements. -/
def Kind.implements : Kind → Message → Bool
  | .menu, .loginFbWithStatus _ => true
  | .signin, .authStatus _ => true
  | .signup, .authStatus _ => true
  | .forgotPassword, .authStatus _ => true
  | .profile, .profileDataRecieved _ => true
  | .profile, .authStatus _ => true
  | .profile, .linkingGGStatus _ => true
  | .profile, .linkingFBStatus _ => true
  | .edit, .profileDataRecieved _ => true
  | .viewProfile, .uploadProfileImageStatus _ => true
  | .friends, .successProfileWith _ => true
  | _, _ => false

/-- The methods of the services behind the buttons. -/
def Touch.calls : Touch → Call → Bool
  | .loginWithFB, .loginWithFacebook => true
  | .signinButton, .signinWithEmail .. => true
  | .signupButton _, .signupWithEmail .. => true
  | .resetButton, .resetPasswordWithEmail _ => true
  | .logoutButton keychain, .logout keychain' => keychain == keychain'
  | .fbLinking, .fbLinking => true
  | .ggLinking password, .emailLinking _ => utf16Length password != 0
  | .updateData, .updateDataWithName .. => true
  | .didFinishPicking _, .uploadProfileImage _ => true
  | _, _ => false

namespace Screen

theorem receive_isSome (sc : Screen) (user : Option Profile) (m : Message) :
    (sc.receive user m).isSome = sc.kind.implements m := by
  cases sc <;> cases m <;> rfl

/-! ### One case for each branch -/

/-- What the method of a screen for a message runs. -/
inductive Received (user : Option Profile) : Screen → Message → List Command → Prop
  | loginFbFailed {status : Int} (text : String) :
      Received user .menu (.loginFbWithStatus status) [.alert text]
  | loginFb : Received user .menu (.loginFbWithStatus 1) [.push .profile]
  | loginFbOther {status : Int} : Received user .menu (.loginFbWithStatus status) []
  | signinFailed (sc : SigninScreen) (text : String) :
      Received user (.signin sc) (.authStatus 0) [.alert text, .become (.signin sc.clear)]
  | signinRefused (sc : SigninScreen) :
      Received user (.signin sc) (.authStatus 0) [.become (.signin sc.clear)]
  | signedIn (sc : SigninScreen) {status : Int} (hs : status ≠ 0) :
      Received user (.signin sc) (.authStatus status)
        [.become (.signin { sc with hidden := true }), .push .profile,
          .become (.signin { sc with hidden := true }.clear)]
  | signupFailed (sc : SignupScreen) (text : String) (hu : utf16Length sc.username ≠ 0) :
      Received user (.signup sc) (.authStatus 0)
        [.alert text, .become (.signup (sc.clear "all"))]
  | signupRefused (sc : SignupScreen) : Received user (.signup sc) (.authStatus 0) []
  | signedUp (sc : SignupScreen) {status : Int} (hs : status ≠ 0) :
      Received user (.signup sc) (.authStatus status)
        [.become (.signup { sc with hidden := true }), .call sc.saveCall, .push .profile]
  | resetFailed (sc : ForgotPasswordScreen) (text : String) :
      Received user (.forgotPassword sc) (.authStatus 0)
        [.alert text, .become (.forgotPassword ⟨""⟩)]
  | resetSent (sc : ForgotPasswordScreen) {status : Int} (text : String) (hs : status ≠ 0) :
      Received user (.forgotPassword sc) (.authStatus status) [.alert text, .dispatchAfter]
  | dateMissing (sc : ProfileScreen) {status : Int}
      (hd : user.bind Profile.mUserJoinedDate = none) :
      Received user (.profile sc) (.profileDataRecieved status) [.raise .nilArgument]
  | profileShown {sc sc' : ProfileScreen} {status : Int}
      (h : sc.profileDataRecieved user = [.become (.profile sc'), .endIgnoring]) :
      Received user (.profile sc) (.profileDataRecieved status)
        [.become (.profile sc'), .endIgnoring]
  | logoutFailed (sc : ProfileScreen) (text : String) :
      Received user (.profile sc) (.authStatus 0) [.alert text]
  | loggedOut (sc : ProfileScreen) {status : Int} (hs : status ≠ 0) :
      Received user (.profile sc) (.authStatus status) [.push .menu]
  | linkFailed (sc : ProfileScreen) {m : Message}
      (hm : m = .linkingGGStatus 0 ∨ m = .linkingFBStatus 0) (text : String) :
      Received user (.profile sc) m [.alert text]
  | linkedGG (sc : ProfileScreen) {status : Int} (text : String) :
      Received user (.profile sc) (.linkingGGStatus status)
        [.alert text, .become (.profile { sc with ggStatus := some true })]
  | linkedFB (sc : ProfileScreen) {status : Int} (text : String) :
      Received user (.profile sc) (.linkingFBStatus status)
        [.alert text, .become (.profile { sc with fbStatus := some true })]
  | editKept (sc : EditProfileScreen) : Received user (.edit sc) (.profileDataRecieved 0) []
  | editShown {sc sc' : EditProfileScreen} {status : Int} (hs : status ≠ 0)
      (h : EditProfileScreen.profileDataRecieved user status = [.become (.edit sc')]) :
      Received user (.edit sc) (.profileDataRecieved status) [.become (.edit sc')]
  | uploadFailed (sc : ViewProfileScreen) (text : String) :
      Received user (.viewProfile sc) (.uploadProfileImageStatus 0) [.alert text]
  | uploaded (sc : ViewProfileScreen) {status : Int} (text : String) (hs : status ≠ 0) :
      Received user (.viewProfile sc) (.uploadProfileImageStatus status)
        [.endIgnoring, .alert text, .dispatchAfter]
  | friendReported (sc : FriendsScreen) (p : Profile) :
      Received user (.friends sc) (.successProfileWith p) [.become (.friends ⟨sc.users ++ [p]⟩)]

theorem received {sc : Screen} {user : Option Profile} {m : Message} {cs : List Command}
    (h : sc.receive user m = some cs) : Received user sc m cs := by
  unfold Screen.receive at h
  split at h <;> simp only [Option.some.injEq, reduceCtorEq] at h <;> subst h
  case h_1 status =>
    unfold MenuScreen.loginFbWithStatus
    split_ifs with h₁ h₂ h₃
    · exact .loginFbFailed _
    · exact .loginFbFailed _
    · exact h₃ ▸ .loginFb
    · exact .loginFbOther
  case h_2 sc status =>
    unfold SigninScreen.authStatus
    split_ifs with hs hu
    · exact hs ▸ .signinFailed sc _
    · exact hs ▸ .signinRefused sc
    · exact .signedIn sc hs
  case h_3 sc status =>
    unfold SignupScreen.authStatus
    split_ifs with hs hu
    · exact hs ▸ .signupFailed sc _ hu
    · exact hs ▸ .signupRefused sc
    · exact .signedUp sc hs
  case h_4 sc status =>
    unfold ForgotPasswordScreen.authStatus
    split_ifs with hs
    · exact hs ▸ .resetFailed sc _
    · exact .resetSent sc _ hs
  case h_5 sc status =>
    cases hd : user.bind Profile.mUserJoinedDate with
    | none =>
      have he : sc.profileDataRecieved user = [.raise .nilArgument] := by
        simp only [ProfileScreen.profileDataRecieved, hd]
      exact he ▸ .dateMissing sc hd
    | some date =>
      obtain ⟨sc', he⟩ : ∃ sc', sc.profileDataRecieved user =
          [.become (.profile sc'), .endIgnoring] := by
        simp only [ProfileScreen.profileDataRecieved, hd]
        exact ⟨_, rfl⟩
      rw [he]
      exact .profileShown he
  case h_6 sc status =>
    unfold ProfileScreen.authStatus
    split_ifs with hs
    · exact hs ▸ .logoutFailed sc _
    · exact .loggedOut sc hs
  case h_7 sc status =>
    unfold ProfileScreen.linkingGGStatus
    split_ifs with hs
    · exact .linkFailed sc (.inl (by rw [hs])) _
    · exact .linkedGG sc _
  case h_8 sc status =>
    unfold ProfileScreen.linkingFBStatus
    split_ifs with hs
    · exact .linkFailed sc (.inr (by rw [hs])) _
    · exact .linkedFB sc _
  case h_9 sc status =>
    by_cases hs : status = 0
    · subst hs
      exact .editKept sc
    · obtain ⟨sc', he⟩ : ∃ sc', EditProfileScreen.profileDataRecieved user status =
          [.become (.edit sc')] := by
        simp only [EditProfileScreen.profileDataRecieved, hs, if_false]
        exact ⟨_, rfl⟩
      rw [he]
      exact .editShown hs he
  case h_10 sc status =>
    unfold ViewProfileScreen.uploadProfileImageStatus
    split_ifs with hs
    · exact hs ▸ .uploadFailed sc _
    · exact .uploaded sc _ hs
  case h_11 sc p => exact .friendReported sc p

/-- What a touch of a screen runs. -/
inductive Touched : Screen → Touch → List Command → Prop
  | typed {sc sc' : Screen} {field : TextField} {text : String}
      (h : sc.typed text field = some sc') : Touched sc (.typed field text) [.become sc']
  | menuSigninButton : Touched .menu .menuSigninButton [.push .signin]
  | menuSignupButton : Touched .menu .menuSignupButton [.push .signup]
  | loginWithFB : Touched .menu .loginWithFB [.call .loginWithFacebook]
  | signinButton {sc : SigninScreen} (hh : sc.hidden = false) (h : sc.check = (sc, [])) :
      Touched (.signin sc) .signinButton
        [.become (.signin sc), .call (.signinWithEmail sc.email sc.password)]
  | signinAlerted {sc sc' : SigninScreen} {text : String} (hh : sc.hidden = false)
      (h : sc.check = (sc', [.alert text])) : Touched (.signin sc) .signinButton
        [.alert text, .become (.signin sc'), .call (.signinWithEmail sc'.email sc'.password)]
  | signinDismiss (sc : SigninScreen) : Touched (.signin sc) .dismiss [.pop]
  | forgetPassword (sc : SigninScreen) :
      Touched (.signin sc) .forgetPassword [.presentForgotPassword]
  | checkbox00 (sc : SignupScreen) : Touched (.signup sc) .checkbox00
      [.become (.signup { sc with checkbox00 := !sc.checkbox00 })]
  | checkbox01 (sc : SignupScreen) : Touched (.signup sc) .checkbox01
      [.become (.signup { sc with checkbox01 := !sc.checkbox01 })]
  | signupRefused {sc sc' : SignupScreen} {aliased : Bool} {text : String}
      (h : sc.check aliased = some (sc', text)) : Touched (.signup sc) (.signupButton aliased)
        [.alert text, .become (.signup sc')]
  | signupButton {sc : SignupScreen} {aliased : Bool}
      (hb : sc.checkbox00 = true ∧ sc.checkbox01 = true) :
      Touched (.signup sc) (.signupButton aliased)
        [.call (.signupWithEmail sc.email sc.password sc.username)]
  | signupUnticked (sc : SignupScreen) {aliased : Bool} (text : String) :
      Touched (.signup sc) (.signupButton aliased) [.alert text]
  | signupDismiss (sc : SignupScreen) : Touched (.signup sc) .dismiss [.pop]
  | resetButton (sc : ForgotPasswordScreen) : Touched (.forgotPassword sc) .resetButton
      [.call (.resetPasswordWithEmail sc.email)]
  | resetEmpty (sc : ForgotPasswordScreen) (text : String) :
      Touched (.forgotPassword sc) .resetButton [.alert text]
  | resetDismiss (sc : ForgotPasswordScreen) : Touched (.forgotPassword sc) .dismiss [.dismiss]
  | toggleSearch (sc : ProfileScreen) : Touched (.profile sc) .toggleSearch [.push .friends]
  | singleTapping (sc : ProfileScreen) :
      Touched (.profile sc) .singleTapping [.push .viewProfile]
  | logoutButton (sc : ProfileScreen) (keychain : Bool) :
      Touched (.profile sc) (.logoutButton keychain) [.call (.logout keychain)]
  | fbLinking (sc : ProfileScreen) : Touched (.profile sc) .fbLinking [.call .fbLinking]
  | ggLinking (sc : ProfileScreen) {password : String} (hp : utf16Length password ≠ 0) :
      Touched (.profile sc) (.ggLinking password)
        [.log "password %@" password, .call (.emailLinking password)]
  | ggLinkingEmpty (sc : ProfileScreen) {password : String} (hp : utf16Length password = 0) :
      Touched (.profile sc) (.ggLinking password) [.log "password %@" password]
  | editProfileButton (sc : ProfileScreen) :
      Touched (.profile sc) .editProfileButton [.push .edit]
  | dateChanged (sc : EditProfileScreen) (date : String) :
      Touched (.edit sc) (.dateChanged date) [.become (.edit { sc with mDob := date })]
  | didSelectedRow (sc : EditProfileScreen) (second : Bool) :
      Touched (.edit sc) (.didSelectedRow second)
        [.become (.edit { sc with mGender := EditProfileScreen.genderArray second })]
  | updateData (sc : EditProfileScreen) : Touched (.edit sc) .updateData
      [.call (.updateDataWithName sc.mName sc.mDob sc.mGender "" sc.mPhoneNumber), .push .profile]
  | didFinishPicking (sc : ViewProfileScreen) (image : String) :
      Touched (.viewProfile sc) (.didFinishPicking image)
        [.call (.uploadProfileImage image), .become (.viewProfile ⟨some (.chosen image)⟩),
          .beginIgnoring]

theorem check_cases (sc : SigninScreen) :
    sc.check = (sc, []) ∨ ∃ sc' text, sc.check = (sc', [.alert text]) := by
  unfold SigninScreen.check
  split_ifs
  · exact .inr ⟨_, _, rfl⟩
  · exact .inr ⟨_, _, rfl⟩
  · exact .inr ⟨_, _, rfl⟩
  · exact .inl rfl

theorem touched_cases {sc : Screen} {touch : Touch} {cs : List Command}
    (h : sc.touched touch = some cs) : Touched sc touch cs := by
  unfold Screen.touched at h
  split at h
  case h_1 sc _ text field =>
    obtain ⟨sc', ht, rfl⟩ := Option.map_eq_some_iff.mp h
    exact .typed ht
  case h_5 sc =>
    split_ifs at h with hh
    obtain rfl := Option.some.inj h
    rw [Bool.not_eq_true] at hh
    rcases check_cases sc with hc | ⟨sc', text, hc⟩ <;> simp only [SigninScreen.signinButton, hc]
    · exact .signinButton hh hc
    · exact .signinAlerted hh hc
  case h_10 sc aliased =>
    split_ifs at h
    obtain rfl := Option.some.inj h
    unfold SignupScreen.signupButton
    split
    · next hc => exact .signupRefused hc
    · split_ifs with hb
      · exact .signupButton (by simpa using hb)
      · exact .signupUnticked sc _
  case h_12 sc =>
    obtain rfl := Option.some.inj h
    unfold ForgotPasswordScreen.resetButton
    split_ifs
    · exact .resetButton sc
    · exact .resetEmpty sc _
  case h_18 sc password =>
    obtain rfl := Option.some.inj h
    unfold ProfileScreen.ggLinking
    split_ifs with hp
    · exact .ggLinking sc hp
    · exact .ggLinkingEmpty sc (not_not.mp hp)
  all_goals
    cases h
  all_goals constructor

/-! ### One case for each command -/

/-- A command that the method of `sc` for `m` may run. -/
inductive Answers (sc : Screen) (m : Message) : Command → Prop
  | shows {sc' : Screen} (hk : sc'.kind = sc.kind) : Answers sc m (.become sc')
  | pushProfile : Answers sc m (.push .profile)
  | pushMenu : Answers sc m (.push .menu)
  | saves {su : SignupScreen} {status : Int} (hsc : sc = .signup su)
      (hm : m = .authStatus status) (hs : status ≠ 0) : Answers sc m (.call su.saveCall)
  | dispatchAfter : Answers sc m .dispatchAfter
  | endIgnoring : Answers sc m .endIgnoring
  | alert (text : String) : Answers sc m (.alert text)
  | raise (x : Exn) : Answers sc m (.raise x)

theorem answers_of_receive {sc : Screen} {user : Option Profile} {m : Message}
    {cs : List Command} (h : sc.receive user m = some cs) : ∀ c ∈ cs, sc.Answers m c := by
  cases received h with
  | signedUp su hs => simpa using ⟨.shows rfl, .saves rfl rfl hs, .pushProfile⟩
  | _ =>
    simp only [List.forall_mem_cons, List.not_mem_nil, false_imp_iff, implies_true, and_true]
    repeat' constructor

/-- A command that a touch of `sc` may run. -/
inductive Runs (sc : Screen) (touch : Touch) : Command → Prop
  | shows {sc' : Screen} (hk : sc'.kind = sc.kind) (hf : sc.kind ≠ .friends) :
      Runs sc touch (.become sc')
  | calls {c : Call} (hc : touch.calls c) : Runs sc touch (.call c)
  | push {k : Kind} (hk : k = .viewProfile → touch = .singleTapping) : Runs sc touch (.push k)
  | pop (hk : sc.kind = .signin ∨ sc.kind = .signup) : Runs sc touch .pop
  | presentForgotPassword (hk : sc.kind = .signin) : Runs sc touch .presentForgotPassword
  | dismiss : Runs sc touch .dismiss
  | beginIgnoring : Runs sc touch .beginIgnoring
  | alert (text : String) : Runs sc touch (.alert text)
  | log (format text : String) : Runs sc touch (.log format text)

theorem kind_typed {sc sc' : Screen} {text : String} {field : TextField}
    (h : sc.typed text field = some sc') : sc'.kind = sc.kind ∧ sc.kind ≠ .friends := by
  unfold Screen.typed at h
  split at h <;> cases h <;> simp [kind]

theorem runs_of_touched {sc : Screen} {touch : Touch} {cs : List Command}
    (h : sc.touched touch = some cs) : ∀ c ∈ cs, sc.Runs touch c := by
  cases touched_cases h with
  | typed ht => simpa using .shows (kind_typed ht).1 (kind_typed ht).2
  | _ =>
    simp only [List.forall_mem_cons, List.not_mem_nil, false_imp_iff, implies_true, and_true]
    (repeat' apply And.intro) <;> constructor <;> simp [kind, Touch.calls, *]

end Screen

end Mioto
