import Mioto.Record
import Mioto.Sequence

/-! `AccountBusiness` and `AuthApi` over the Firebase and Facebook SDKs: what the
two singletons keep, what the SDKs keep for them, and each method and completion
block as the source has it. -/

namespace Mioto

abbrev Token := String

/-- A screen object. The services never read it: requests carry the screen that
made the call so that deliveries can be spoken about. -/
abbrev ScreenId := Nat

inductive Exn
  | invalidPath          -- `child:` of a database reference with a nil path
  | nilInDictionary      -- nil in a dictionary literal
  | nilArgument          -- `stringByAppendingString:` with nil
  | noAccessToken        -- a Facebook credential without a token, when it is to be sent
  | unrecognizedSelector
  deriving DecidableEq, Repr

inductive Message
  | profileDataRecieved (status : Int)
  | uploadProfileImageStatus (status : Int)
  | loginFbWithStatus (status : Int)
  | linkingFBStatus (status : Int)
  | linkingGGStatus (status : Int)
  | successProfileWith (profile : Profile)
  | authStatus (status : Int)
  deriving DecidableEq

structure FIRUser where
  uid : Uid
  email : Option String
  displayName : Option String
  photoURL : Option String
  deriving DecidableEq

inductive DialogResult
  | error
  | cancelled          -- error nil, no token
  | granted (token : Token)
  deriving DecidableEq

/-- A one-shot request handed to an SDK, with what its completion block captured.
`starter` is the account signed in when `fbLinking` was called, `dialog` what its
dialog came back with and `username` the name on the form; no block reads them. -/
inductive Request
  | fetch (userID : Uid)
  | putData (userID : Option Uid) (image : String)
  | downloadURL (userID : Option Uid)
  | loginDialog
  | graphMe
  | fetchProviders (email : String) (credential : Option Token)
  | signInFacebook (credential : Option Token) (known : Bool)
  | linkDialog (starter : Option Uid)
  | linkFacebook (user : Uid) (credential : Option Token) (starter : Option Uid)
      (dialog : DialogResult)
  | linkEmail (user : Uid) (email : Option String)
  | createUser (email password username : String)
  | signIn (email password : String)
  | resetPassword (email : String)
  deriving DecidableEq

inductive Reply
  | fetched (userID : Uid) (snapshot : Node)
  | fetchCancelled (userID : Uid)
  | putData (userID : Option Uid) (error : Bool)
  | downloadURL (userID : Option Uid) (token : Option String)
  | graphMe (result : Option (Option String))
  | providers (credential : Option Token) (providers : Option (List String))
  | signedInFacebook (known : Bool) (result : Option FIRUser)
  | linkedFacebook (user : Uid) (starter : Option Uid) (dialog : DialogResult) (error : Bool)
  | linkedEmail (user : Uid) (error : Bool)
  | createdUser (email username : String) (result : Option Uid)
  | signedIn (result : Option Uid)
  | resetSent (error : Bool)
  deriving DecidableEq

structure Pending where
  request : Request
  caller : ScreenId
  deriving DecidableEq

structure Waiting where
  reply : Reply
  caller : ScreenId
  deriving DecidableEq

/-- A child-added observer of `fetchAllData`: the uid its block captured, the
children it has been called for, and the screen that registered it. -/
structure Observer where
  uid : Option Uid
  reported : List Uid
  owner : ScreenId
  deriving DecidableEq

def Observer.accepts (o : Observer) (d : Dict) : Bool :=
  match d .mUserID, o.uid with
  | some x, some uid => x != uid
  | _, _ => true

structure Service where
  users : Uid → Node
  currentUser : Option Uid
  currentAccessToken : Option Token
  pending : List Pending
  replies : List Waiting
  observers : List Observer
  newUser : Option Profile
  mDownloadedURL : Option String
  raised : Option Exn

inductive Effect
  | setRecord (uid : Uid) (d : Dict)
  | setField (uid : Uid) (k : Key) (v : Option String)
  | linkFacebook (user : Uid) (credential : Option Token)
  | linkEmail (user : Uid) (email : Option String) (password : String)
  | send (m : Message)
  | raise (x : Exn)
  deriving DecidableEq

abbrev Done := Service × List Effect

namespace Service

/-! What the SDKs do for the methods below. -/

def raise (s : Service) (x : Exn) : Done :=
  ({ s with raised := some x }, [.raise x])

/-- `[self.listener m]` behind `if (self.listener)`; who listens is not known here. -/
def send (s : Service) (m : Message) : Done := (s, [.send m])

def andThen (r : Done) (f : Service → Done) : Done :=
  Sequence.andThen (fun s : Service => s.raised.isSome) r f

def request (s : Service) (caller : ScreenId) (q : Request) : Service :=
  { s with pending := s.pending ++ [⟨q, caller⟩] }

def setRecord (s : Service) (uid : Uid) (d : Dict) : Done :=
  ({ s with users := Function.update s.users uid (.ofDict d) }, [.setRecord uid d])

def setField (s : Service) (uid : Uid) (k : Key) (v : Option String) : Done :=
  ({ s with users := Function.update s.users uid ((s.users uid).setField k v) },
    [.setField uid k v])

/-- The download URL of the storage object `UsersImg/userID`. A nil path leaves
the reference at `UsersImg`. -/
def storageURL (userID : Option Uid) (token : String) : String :=
  "https://firebasestorage.googleapis.com/v0/b/mymioto.appspot.com/o/UsersImg" ++
    (match userID with
    | some uid => "%2F" ++ uid
    | none => "") ++ "?alt=media&token=" ++ token

/-! `AccountBusiness`. -/

def savedRecord (uid stringTime : String)
    (email name dob gender img number fbLink emailLink : Option String) : Dict
  | .mUserDateOfBirth => dob
  | .mUserEmail => email
  | .mUserGender => gender
  | .mUserID => some uid
  | .mUserImgUrl => img
  | .mUserName => name
  | .mUserPhone => number
  | .mUserJoinedDate => some stringTime
  | .mFBLinking => fbLink
  | .mEmailLinking => emailLink

/-- `stringTime` is what the date formatter makes of the current date. -/
def saveDataWithEmail (s : Service) (stringTime : String)
    (email name dob gender img number fbLink emailLink : Option String) : Done :=
  match s.currentUser with
  | none => s.raise .invalidPath
  | some uid =>
    match dictionaryLiteral
      (savedRecord uid stringTime email name dob gender img number fbLink emailLink) with
    | none => s.raise .nilInDictionary
    | some d => s.setRecord uid d

def saveImg (s : Service) : Done :=
  match s.currentUser with
  | none => s.raise .invalidPath
  | some uid => s.setField uid .mUserImgUrl s.mDownloadedURL

def updatedRecord (uid : Uid) (newUser : Option Profile)
    (name dob gender number : String) : Dict
  | .mUserDateOfBirth => some dob
  | .mUserGender => some gender
  | .mUserID => some uid
  | .mUserImgUrl => newUser.bind Profile.mUserImgUrl
  | .mUserName => some name
  | .mUserPhone => some number
  | .mUserEmail => newUser.bind Profile.mUserEmail
  | .mUserJoinedDate => newUser.bind Profile.mUserJoinedDate
  | .mFBLinking => newUser.bind Profile.mFBLinking
  | .mEmailLinking => newUser.bind Profile.mEmailLinking

def updateDataWithName (s : Service) (name dob gender _img number : String) : Done :=
  match s.currentUser with
  | none => s.raise .invalidPath
  | some uid =>
    match dictionaryLiteral (updatedRecord uid s.newUser name dob gender number) with
    | none => s.raise .nilInDictionary
    | some d => s.setRecord uid d

def fetchData (s : Service) (caller : ScreenId) : Done :=
  match s.currentUser with
  | none => s.raise .invalidPath
  | some userID => (s.request caller (.fetch userID), [])

def fetchAllData (s : Service) (caller : ScreenId) : Done :=
  ({ s with observers := s.observers ++ [⟨s.currentUser, [], caller⟩] }, [])

def uploadProfileImage (s : Service) (caller : ScreenId) (image : String) : Done :=
  (s.request caller (.putData s.currentUser image), [])

def loginWithFacebook (s : Service) (caller : ScreenId) : Done :=
  ({ s with currentAccessToken := none }.request caller .loginDialog, [])

/-- The provider query puts the email into a dictionary literal of its own. -/
def signinWithFirebase (s : Service) (caller : ScreenId) (email : Option String) : Done :=
  match email with
  | none => s.raise .nilInDictionary
  | some email => (s.request caller (.fetchProviders email s.currentAccessToken), [])

def fbLinking (s : Service) (caller : ScreenId) : Done :=
  (s.request caller (.linkDialog s.currentUser), [])

/-- A link request to a nil `currentUser` goes nowhere. -/
def emailLinking (s : Service) (caller : ScreenId) (password : String) : Done :=
  let email := s.newUser.bind Profile.mUserEmail
  match s.currentUser with
  | none => (s, [])
  | some user => (s.request caller (.linkEmail user email), [.linkEmail user email password])

/-! `AuthApi`. -/

def signupWithEmail (s : Service) (caller : ScreenId) (email pass username : String) : Done :=
  (s.request caller (.createUser email pass username), [])

def signinWithEmail (s : Service) (caller : ScreenId) (email pass : String) : Done :=
  (s.request caller (.signIn email pass), [])

def resetPasswordWithEmail (s : Service) (caller : ScreenId) (email : String) : Done :=
  (s.request caller (.resetPassword email), [])

def didLogin (s : Service) : Bool := s.currentUser.isSome

/-- `signOut:` can fail to clear the keychain only when someone is signed in. -/
def logout (s : Service) (keychain : Bool) : Done :=
  if s.currentUser.isSome && !keychain then s.send (.authStatus 0)
  else { s with currentUser := none }.send (.authStatus 1)

/-! Completion blocks. -/

def loginHandler (s : Service) (caller : ScreenId) : DialogResult → Done
  | .error => s.send (.loginFbWithStatus 0)
  | .cancelled =>
    if s.currentAccessToken.isSome then (s.request caller .graphMe, []) else (s, [])
  | .granted token =>
    ({ s with currentAccessToken := some token }.request caller .graphMe, [])

/-- The token may be nil: the request is made, and the SDK raises later, when it sends it. -/
def linkCurrentToken (s : Service) (caller : ScreenId) (starter : Option Uid)
    (dialog : DialogResult) : Done :=
  match s.currentUser with
  | none => (s, [])
  | some user =>
    (s.request caller (.linkFacebook user s.currentAccessToken starter dialog),
      [.linkFacebook user s.currentAccessToken])

def linkHandler (s : Service) (caller : ScreenId) (starter : Option Uid) : DialogResult → Done
  | .error => s.send (.loginFbWithStatus 0)
  | .cancelled => s.linkCurrentToken caller starter .cancelled
  | .granted token =>
    { s with currentAccessToken := some token }.linkCurrentToken caller starter (.granted token)

/-- The end of both link completions: the flag goes to whoever is signed in now. -/
def linkFlag (s : Service) (k : Key) (m : Int → Message) (error : Bool) : Done :=
  if error then s.send (m 0)
  else
    match s.currentUser with
    | none => s.raise .invalidPath
    | some uid => andThen (s.setField uid k (some "true")) (·.send (m 1))

def authCompletion (s : Service) (error : Bool) : Done :=
  s.send (.authStatus (if error then 0 else 1))

def unchosen : String := "Chưa chọn"

/-- The block of the second sign-in of `signinWithFirebase:`. -/
def registerFacebook (s : Service) (stringTime : String) (user : FIRUser) : Done :=
  andThen
    (s.saveDataWithEmail stringTime user.email user.displayName (some unchosen) (some unchosen)
      (user.photoURL.map (· ++ "?type=large")) (some unchosen) (some "true") (some "false"))
    (·.send (.loginFbWithStatus 1))

def completion (s : Service) (stringTime : String) (caller : ScreenId) : Reply → Done
  | .fetched _ (.dict d) =>
    { s with newUser := some (transformUser d) }.send (.profileDataRecieved 1)
  -- `NSNull` or a leaf is not nil, and has no `objectForKeyedSubscript:`.
  | .fetched _ _ => s.raise .unrecognizedSelector
  | .fetchCancelled _ => s.send (.profileDataRecieved 0)
  | .putData userID error =>
    if error then s.send (.uploadProfileImageStatus 0)
    else (s.request caller (.downloadURL userID), [])
  | .downloadURL _ none => (s, [])
  | .downloadURL userID (some token) =>
    andThen { s with mDownloadedURL := some (storageURL userID token) }.saveImg
      (·.send (.uploadProfileImageStatus 1))
  | .graphMe none => (s, [])
  | .graphMe (some email) => s.signinWithFirebase caller email
  | .providers credential providers =>
    (s.request caller (.signInFacebook credential providers.isSome), [])
  | .signedInFacebook true _ => s.send (.loginFbWithStatus 1)
  | .signedInFacebook false none => s.send (.loginFbWithStatus (-1))
  | .signedInFacebook false (some user) => s.registerFacebook stringTime user
  | .linkedFacebook _ _ _ error => s.linkFlag .mFBLinking .linkingFBStatus error
  | .linkedEmail _ error => s.linkFlag .mEmailLinking .linkingGGStatus error
  | .createdUser _ _ result => s.authCompletion result.isNone
  | .signedIn result => s.authCompletion result.isNone
  | .resetSent error => s.authCompletion error

def childAdded (s : Service) (o : Observer) : Node → Done
  | .dict d =>
    if o.accepts d then
      { s with newUser := some (transformUser d) }.send (.successProfileWith (transformUser d))
    else (s, [])
  | _ => s.raise .unrecognizedSelector

/-! The SDK side of a request. -/

/-- The replies an SDK may give. A snapshot is taken to be what the database holds when it
is read, and a set to take effect when it is made: the SDK's own copy of what it listens to
and its queue of writes are not told apart from the server. -/
def answers (s : Service) : Request → Reply → Bool
  | .fetch userID, .fetched userID' n => userID' = userID ∧ n = s.users userID
  | .fetch userID, .fetchCancelled userID' => userID' = userID
  | .putData userID _, .putData userID' _ => userID' = userID
  | .downloadURL userID, .downloadURL userID' _ => userID' = userID
  | .graphMe, .graphMe _ => true
  | .fetchProviders _ credential, .providers credential' _ => credential' = credential
  | .signInFacebook _ known, .signedInFacebook known' _ => known' = known
  | .linkFacebook user _ starter dialog, .linkedFacebook user' starter' dialog' _ =>
    user' = user ∧ starter' = starter ∧ dialog' = dialog
  | .linkEmail user _, .linkedEmail user' _ => user' = user
  | .createUser email _ username, .createdUser email' username' _ =>
    email' = email ∧ username' = username
  | .signIn _ _, .signedIn _ => true
  | .resetPassword _, .resetSent _ => true
  | _, _ => false

/-- A sign-in that succeeds changes `currentUser` before its completion is queued. -/
def signedInBy : Reply → Option Uid
  | .signedInFacebook _ (some user) => some user.uid
  | .createdUser _ _ (some uid) => some uid
  | .signedIn (some uid) => some uid
  | _ => none

/-- FirebaseAuth raises when it comes to send a Facebook credential that has no token. A
link may fail before that: the account has that provider, or its ID token cannot be had. -/
def refuses : Request → Reply → Bool
  | .signInFacebook none _, _ => true
  | .linkFacebook _ none _ _, .linkedFacebook _ _ _ error => !error
  | _, _ => false

def answer (s : Service) (k : Nat) (caller : ScreenId) (r : Reply) : Service :=
  { s with
    pending := s.pending.eraseIdx k
    replies := s.replies ++ [⟨r, caller⟩]
    currentUser := (signedInBy r).or s.currentUser }

end Service

end Mioto
