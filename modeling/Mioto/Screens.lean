import Mioto.ServiceMachine

/-! The eight screens: what each keeps, and what each of its methods does, as the
list of commands it runs. -/

namespace Mioto

/-- `NSString.length` counts UTF-16 units. -/
def utf16Length (s : String) : Nat :=
  s.toList.length + s.toList.countP fun c => decide (0x10000 ≤ c.toNat)

inductive Kind
  | menu | signin | signup | forgotPassword | profile | edit | viewProfile | friends
  deriving DecidableEq, Repr

structure SigninScreen where
  email : String
  password : String
  hidden : Bool                -- the sign-in button
  deriving DecidableEq

structure SignupScreen where
  username : String
  email : String
  password : String
  rePassword : String
  checkbox00 : Bool
  checkbox01 : Bool
  hidden : Bool                -- the sign-up button
  deriving DecidableEq

structure ForgotPasswordScreen where
  email : String
  deriving DecidableEq

/-- What the labels and images show; `none` is what the nib has. A status is true
when it reads "Đã xác thực". -/
structure ProfileScreen where
  profileImage : Option String
  username : Option String
  gender : Option String
  dob : Option String
  joinedDate : Option String
  phoneStatus : Option Bool
  emailStatus : Option Bool
  fbStatus : Option Bool
  ggStatus : Option Bool
  deriving DecidableEq

structure EditProfileScreen where
  mName : String
  mDob : String
  mGender : String
  mPhoneNumber : String
  deriving DecidableEq

inductive Picture
  | url (url : String)
  | chosen (image : String)
  deriving DecidableEq

structure ViewProfileScreen where
  prorfileImage : Option Picture
  deriving DecidableEq

structure FriendsScreen where
  users : List Profile
  deriving DecidableEq

inductive Screen
  | menu
  | signin (sc : SigninScreen)
  | signup (sc : SignupScreen)
  | forgotPassword (sc : ForgotPasswordScreen)
  | profile (sc : ProfileScreen)
  | edit (sc : EditProfileScreen)
  | viewProfile (sc : ViewProfileScreen)
  | friends (sc : FriendsScreen)
  deriving DecidableEq

def Screen.kind : Screen → Kind
  | .menu => .menu
  | .signin _ => .signin
  | .signup _ => .signup
  | .forgotPassword _ => .forgotPassword
  | .profile _ => .profile
  | .edit _ => .edit
  | .viewProfile _ => .viewProfile
  | .friends _ => .friends

inductive TextField
  | username | email | password | rePassword | mName | mDob | mGender | mPhoneNumber
  deriving DecidableEq, Repr

/-- What a user can do to a screen. Text is typed or pasted, into the fields with a picker
too. `aliased` says whether the two password fields return one string object, `keychain`
whether it lets itself be cleared, `date` is what the formatter makes of the picked date. -/
inductive Touch
  | typed (field : TextField) (text : String)
  | dismiss
  | menuSigninButton
  | menuSignupButton
  | loginWithFB
  | signinButton
  | forgetPassword
  | checkbox00
  | checkbox01
  | signupButton (aliased : Bool)
  | resetButton
  | toggleSearch
  | singleTapping
  | logoutButton (keychain : Bool)
  | fbLinking
  | ggLinking (password : String)
  | editProfileButton
  | dateChanged (date : String)
  | didSelectedRow (second : Bool)
  | updateData
  | didFinishPicking (image : String)
  deriving DecidableEq

inductive Command
  | become (sc : Screen)       -- own fields and views
  | listenFireBase
  | listenAuth
  | call (c : Call)
  | push (k : Kind)            -- on the navigation controller, if it is in one
  | pop
  | presentForgotPassword
  | dismiss
  | dispatchAfter
  | beginIgnoring
  | endIgnoring
  | alert (text : String)
  | log (format text : String)
  | raise (x : Exn)

/-! `Menu_1_ViewController`. -/

namespace MenuScreen

def autoLogin (didLogin : Bool) : List Command := if didLogin then [.push .profile] else []

def viewDidLoad (didLogin : Bool) : List Command :=
  [.listenFireBase, .listenAuth] ++ autoLogin didLogin

def loginFbWithStatus (status : Int) : List Command :=
  if status = -1 then [.alert "Không thể lấy dữ liệu từ Facebook của bạn"]
  else if status = 0 then [.alert "Đã có lỗi xảy ra khi đăng nhập, vui lòng thử lại sau"]
  else if status = 1 then [.push .profile]
  else []

end MenuScreen

/-! `SigninViewController`. -/

namespace SigninScreen

def loaded : SigninScreen := ⟨"", "", false⟩

def viewDidLoad : List Command := [.listenAuth]

def clear (sc : SigninScreen) : SigninScreen := { sc with email := "", password := "" }

/-- Returns the fields it leaves and the alerts it shows; the sign-in goes on. -/
def check (sc : SigninScreen) : SigninScreen × List Command :=
  if utf16Length sc.email = 0 ∧ utf16Length sc.password = 0 then
    (sc, [.alert "Bạn chưa nhập thông tin đăng nhập"])
  else if utf16Length sc.email = 0 then (sc.clear, [.alert "Vui lòng nhập Email"])
  else if utf16Length sc.password < 6 then (sc.clear, [.alert "Vui lòng nhập lại mật khẩu"])
  else (sc, [])

def signinButton (sc : SigninScreen) : List Command :=
  sc.check.2 ++ [.become (.signin sc.check.1),
    .call (.signinWithEmail sc.check.1.email sc.check.1.password)]

def authStatus (sc : SigninScreen) (status : Int) : List Command :=
  if status = 0 then
    (if utf16Length sc.email ≠ 0 then [.alert "Email hoặc mật khẩu sai"] else []) ++
      [.become (.signin sc.clear)]
  else
    [.become (.signin { sc with hidden := true }), .push .profile,
      .become (.signin { sc with hidden := true }.clear)]

end SigninScreen

/-! `SignupViewController`. -/

namespace SignupScreen

def loaded : SignupScreen := ⟨"", "", "", "", false, false, false⟩

def viewDidLoad : List Command := [.listenAuth, .listenFireBase]

def uncheckCheckBox (sc : SignupScreen) : SignupScreen :=
  { sc with checkbox00 := false, checkbox01 := false }

def clear (sc : SignupScreen) (type : String) : SignupScreen :=
  uncheckCheckBox <|
    if type = "password" then { sc with password := "", rePassword := "" }
    else if type = "email" then { sc with email := "" }
    else if type = "all" then
      { sc with username := "", email := "", password := "", rePassword := "" }
    else sc

/-- `none` when the check passes, else the fields it leaves and its alert. The two
passwords are compared as objects. -/
def check (sc : SignupScreen) (aliased : Bool) : Option (SignupScreen × String) :=
  if utf16Length sc.username = 0 then some (sc, "Vui lòng nhập tên đăng nhập")
  else if utf16Length sc.email = 0 then some (sc.clear "email", "Vui lòng nhập Email")
  else if utf16Length sc.password < 6 then
    some (sc.clear "password", "Mật khẩu bạn nhập ít hơn 6 kí tự")
  else if !aliased then some (sc.clear "password", "Mật khẩu không trùng nhau")
  else none

def signupButton (sc : SignupScreen) (aliased : Bool) : List Command :=
  match sc.check aliased with
  | some (sc', text) => [.alert text, .become (.signup sc')]
  | none =>
    if sc.checkbox00 && sc.checkbox01 then
      [.call (.signupWithEmail sc.email sc.password sc.username)]
    else [.alert "Đồng ý các điểu khoản để tiếp tục"]

def defaultAvatar : String :=
  "https://firebasestorage.googleapis.com/v0/b/mymioto.appspot.com/o/UsersImg%2F" ++
    "defaultavatar.jpg?alt=media&token=d01ebb9c-bc62-469f-b709-db483bb0e284"

def saveCall (sc : SignupScreen) : Call :=
  .saveDataWithEmail (some sc.email) (some sc.username) (some Service.unchosen) (some " ")
    (some defaultAvatar) (some Service.unchosen) (some "false") (some "true")

def authStatus (sc : SignupScreen) (status : Int) : List Command :=
  if status = 0 then
    if utf16Length sc.username ≠ 0 then
      [.alert "Tài khoản đã tồn tại hoặc email sai cú pháp!", .become (.signup (sc.clear "all"))]
    else []
  else
    [.become (.signup { sc with hidden := true }), .call sc.saveCall, .push .profile]

end SignupScreen

/-! `ForgotPasswordViewController`. -/

namespace ForgotPasswordScreen

def loaded : ForgotPasswordScreen := ⟨""⟩

def viewDidLoad : List Command := [.listenAuth]

def authStatus (status : Int) : List Command :=
  if status = 0 then
    [.alert "Đã xảy ra lỗi khi đặt lại mật khẩu !", .become (.forgotPassword ⟨""⟩)]
  else [.alert "Yêu cầu đã được gửi đến email của bạn !", .dispatchAfter]

def resetButton (sc : ForgotPasswordScreen) : List Command :=
  if utf16Length sc.email ≠ 0 then [.call (.resetPasswordWithEmail sc.email)]
  else [.alert "Vui lòng nhập email để đặt lại mật khẩu"]

end ForgotPasswordScreen

/-! `ProfileViewController`. -/

namespace ProfileScreen

def loaded : ProfileScreen := ⟨none, none, none, none, none, none, none, none, none⟩

def viewDidLoad : List Command := [.beginIgnoring, .listenFireBase, .listenAuth, .call .fetchData]

/-- Shows the cached profile, whichever the status. A nil property is not equal to
any string, and its length is 0. -/
def profileDataRecieved (sc : ProfileScreen) (user : Option Profile) : List Command :=
  match user.bind Profile.mUserJoinedDate with
  | none => [.raise .nilArgument]
  | some date =>
    [.become (.profile {
        profileImage := (user.bind Profile.mUserImgUrl).or sc.profileImage
        username := user.bind Profile.mUserName
        dob := user.bind Profile.mUserDateOfBirth
        gender := user.bind Profile.mUserGender
        joinedDate := some ("Ngày tham gia: " ++ date)
        phoneStatus := some (user.bind Profile.mUserPhone != some Service.unchosen)
        emailStatus := some (utf16Length ((user.bind Profile.mUserEmail).getD "") != 0)
        fbStatus := some (user.bind Profile.mFBLinking != some "false")
        ggStatus := some (user.bind Profile.mEmailLinking != some "false") }),
      .endIgnoring]

def authStatus (status : Int) : List Command :=
  if status = 0 then [.alert "Đăng xuất đang gặp vấn đề"] else [.push .menu]

def ggLinking (password : String) : List Command :=
  .log "password %@" password ::
    if utf16Length password ≠ 0 then [.call (.emailLinking password)] else []

def linkingGGStatus (sc : ProfileScreen) (status : Int) : List Command :=
  if status = 0 then [.alert "Liên kết đã xảy ra lỗi"]
  else [.alert "Liên kết thành công", .become (.profile { sc with ggStatus := some true })]

def linkingFBStatus (sc : ProfileScreen) (status : Int) : List Command :=
  if status = 0 then [.alert "Liên kết đã xảy ra lỗi"]
  else [.alert "Liên kết thành công", .become (.profile { sc with fbStatus := some true })]

end ProfileScreen

/-! `EditProfileViewViewController`. -/

namespace EditProfileScreen

def loaded : EditProfileScreen := ⟨"", "", "", ""⟩

def viewDidLoad : List Command := [.listenFireBase, .call .fetchData]

/-- A text field that is given nil holds the empty text. -/
def profileDataRecieved (user : Option Profile) (status : Int) : List Command :=
  if status = 0 then []
  else
    [.become (.edit {
      mName := (user.bind Profile.mUserName).getD ""
      mPhoneNumber := (user.bind Profile.mUserPhone).getD ""
      mDob := (user.bind Profile.mUserDateOfBirth).getD ""
      mGender := (user.bind Profile.mUserGender).getD "" })]

def genderArray (second : Bool) : String := if second then "Nữ" else "Nam"

def updateData (sc : EditProfileScreen) : List Command :=
  [.call (.updateDataWithName sc.mName sc.mDob sc.mGender "" sc.mPhoneNumber), .push .profile]

end EditProfileScreen

/-! `ViewProfileViewController`. -/

namespace ViewProfileScreen

def loaded (user : Option Profile) : ViewProfileScreen :=
  ⟨(user.bind Profile.mUserImgUrl).map .url⟩

def viewDidLoad : List Command := [.listenFireBase]

def didFinishPicking (image : String) : List Command :=
  [.call (.uploadProfileImage image), .become (.viewProfile ⟨some (.chosen image)⟩),
    .beginIgnoring]

def uploadProfileImageStatus (status : Int) : List Command :=
  if status = 0 then [.alert "Đã có lỗi xảy ra, vui lòng thử lại sau"]
  else [.endIgnoring, .alert "Chỉnh sửa hình thành công", .dispatchAfter]

end ViewProfileScreen

/-! `DisplayAllFriends`. -/

namespace FriendsScreen

def loaded : FriendsScreen := ⟨[]⟩

def viewDidLoad : List Command := [.listenFireBase, .call .fetchAllData]

def successProfileWith (sc : FriendsScreen) (profile : Profile) : List Command :=
  [.become (.friends ⟨sc.users ++ [profile]⟩)]

end FriendsScreen

/-! All screens. `user` is what `getData` returns, which is `newUser`. -/

def Kind.loaded (user : Option Profile) : Kind → Screen
  | .menu => .menu
  | .signin => .signin .loaded
  | .signup => .signup .loaded
  | .forgotPassword => .forgotPassword .loaded
  | .profile => .profile .loaded
  | .edit => .edit .loaded
  | .viewProfile => .viewProfile (.loaded user)
  | .friends => .friends .loaded

def Kind.viewDidLoad (didLogin : Bool) : Kind → List Command
  | .menu => MenuScreen.viewDidLoad didLogin
  | .signin => SigninScreen.viewDidLoad
  | .signup => SignupScreen.viewDidLoad
  | .forgotPassword => ForgotPasswordScreen.viewDidLoad
  | .profile => ProfileScreen.viewDidLoad
  | .edit => EditProfileScreen.viewDidLoad
  | .viewProfile => ViewProfileScreen.viewDidLoad
  | .friends => FriendsScreen.viewDidLoad

/-- The method a class has for a message; `none` when it has none. -/
def Screen.receive (user : Option Profile) : Screen → Message → Option (List Command)
  | .menu, .loginFbWithStatus status => some (MenuScreen.loginFbWithStatus status)
  | .signin sc, .authStatus status => some (sc.authStatus status)
  | .signup sc, .authStatus status => some (sc.authStatus status)
  | .forgotPassword _, .authStatus status => some (ForgotPasswordScreen.authStatus status)
  | .profile sc, .profileDataRecieved _ => some (sc.profileDataRecieved user)
  | .profile _, .authStatus status => some (ProfileScreen.authStatus status)
  | .profile sc, .linkingGGStatus status => some (sc.linkingGGStatus status)
  | .profile sc, .linkingFBStatus status => some (sc.linkingFBStatus status)
  | .edit _, .profileDataRecieved status =>
    some (EditProfileScreen.profileDataRecieved user status)
  | .viewProfile _, .uploadProfileImageStatus status =>
    some (ViewProfileScreen.uploadProfileImageStatus status)
  | .friends sc, .successProfileWith p => some (sc.successProfileWith p)
  | _, _ => none

def Screen.typed (text : String) : Screen → TextField → Option Screen
  | .signin sc, .email => some (.signin { sc with email := text })
  | .signin sc, .password => some (.signin { sc with password := text })
  | .signup sc, .username => some (.signup { sc with username := text })
  | .signup sc, .email => some (.signup { sc with email := text })
  | .signup sc, .password => some (.signup { sc with password := text })
  | .signup sc, .rePassword => some (.signup { sc with rePassword := text })
  | .forgotPassword _, .email => some (.forgotPassword ⟨text⟩)
  | .edit sc, .mName => some (.edit { sc with mName := text })
  | .edit sc, .mDob => some (.edit { sc with mDob := text })
  | .edit sc, .mGender => some (.edit { sc with mGender := text })
  | .edit sc, .mPhoneNumber => some (.edit { sc with mPhoneNumber := text })
  | _, _ => none

/-- The action a touch sends to a screen; `none` when the screen does not offer it. -/
def Screen.touched : Screen → Touch → Option (List Command)
  | sc, .typed field text => (sc.typed text field).map fun sc' => [.become sc']
  | .menu, .menuSigninButton => some [.push .signin]
  | .menu, .menuSignupButton => some [.push .signup]
  | .menu, .loginWithFB => some [.call .loginWithFacebook]
  | .signin sc, .signinButton => if sc.hidden then none else some sc.signinButton
  | .signin _, .dismiss => some [.pop]
  | .signin _, .forgetPassword => some [.presentForgotPassword]
  | .signup sc, .checkbox00 => some [.become (.signup { sc with checkbox00 := !sc.checkbox00 })]
  | .signup sc, .checkbox01 => some [.become (.signup { sc with checkbox01 := !sc.checkbox01 })]
  | .signup sc, .signupButton aliased =>
    if sc.hidden ∨ (aliased ∧ sc.password ≠ sc.rePassword) then none
    else some (sc.signupButton aliased)
  | .signup _, .dismiss => some [.pop]
  | .forgotPassword sc, .resetButton => some sc.resetButton
  | .forgotPassword _, .dismiss => some [.dismiss]
  | .profile _, .toggleSearch => some [.push .friends]
  | .profile _, .singleTapping => some [.push .viewProfile]
  | .profile _, .logoutButton keychain => some [.call (.logout keychain)]
  | .profile _, .fbLinking => some [.call .fbLinking]
  | .profile _, .ggLinking password => some (ProfileScreen.ggLinking password)
  | .profile _, .editProfileButton => some [.push .edit]
  | .edit sc, .dateChanged date => some [.become (.edit { sc with mDob := date })]
  | .edit sc, .didSelectedRow second =>
    some [.become (.edit { sc with mGender := EditProfileScreen.genderArray second })]
  | .edit sc, .updateData => some sc.updateData
  | .viewProfile _, .didFinishPicking image => some (ViewProfileScreen.didFinishPicking image)
  | _, _ => none

def Kind.deferred : Kind → List Command
  | .forgotPassword => [.dismiss]
  | .viewProfile => [.push .profile]
  | _ => []

end Mioto
