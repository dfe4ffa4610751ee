import Mioto.Machine
import Mioto.Service

/-! The services as a machine. Methods are called in any order and with any
arguments, the SDKs answer and the main queue runs completion blocks in any
order, and other devices write to the same database. -/

namespace Mioto

inductive Call
  | saveDataWithEmail (email name dob gender img number fbLink emailLink : Option String)
  | updateDataWithName (name dob gender img number : String)
  | fetchData
  | fetchAllData
  | uploadProfileImage (image : String)
  | loginWithFacebook
  | fbLinking
  | emailLinking (password : String)
  | signupWithEmail (email pass username : String)
  | signinWithEmail (email pass : String)
  | resetPasswordWithEmail (email : String)
  | logout (keychain : Bool)

/-- `k` and `o` are positions in the lists of the state; `stringTime` is the date
string at that moment. -/
inductive ServiceEvent
  | call (caller : ScreenId) (stringTime : String) (c : Call)
  | answer (k : Nat) (r : Reply)
  | complete (k : Nat) (stringTime : String)
  | dialog (k : Nat) (result : DialogResult)
  | childAdded (o : Nat) (child : Uid)
  | remoteRecord (uid : Uid) (d : Dict)
  | remoteField (uid : Uid) (k : Key) (v : Option String)

namespace Service

def call (s : Service) (caller : ScreenId) (stringTime : String) : Call → Done
  | .saveDataWithEmail email name dob gender img number fbLink emailLink =>
    s.saveDataWithEmail stringTime email name dob gender img number fbLink emailLink
  | .updateDataWithName name dob gender img number =>
    s.updateDataWithName name dob gender img number
  | .fetchData => s.fetchData caller
  | .fetchAllData => s.fetchAllData caller
  | .uploadProfileImage image => s.uploadProfileImage caller image
  | .loginWithFacebook => s.loginWithFacebook caller
  | .fbLinking => s.fbLinking caller
  | .emailLinking password => s.emailLinking caller password
  | .signupWithEmail email pass username => s.signupWithEmail caller email pass username
  | .signinWithEmail email pass => s.signinWithEmail caller email pass
  | .resetPasswordWithEmail email => s.resetPasswordWithEmail caller email
  | .logout keychain => s.logout keychain

def complete (s : Service) (k : Nat) (stringTime : String) (w : Waiting) : Done :=
  { s with replies := s.replies.eraseIdx k }.completion stringTime w.caller w.reply

/-- Closes the dialog at position `k`; the Facebook SDK runs the handler at once. -/
def closeDialog (s : Service) (k : Nat) (result : DialogResult) (p : Pending) : Option Done :=
  match p.request with
  | .loginDialog =>
    some ({ s with pending := s.pending.eraseIdx k }.loginHandler p.caller result)
  | .linkDialog starter =>
    some ({ s with pending := s.pending.eraseIdx k }.linkHandler p.caller starter result)
  | _ => none

def reportChild (s : Service) (o : Nat) (child : Uid) (ob : Observer) : Option Done :=
  if child ∈ ob.reported ∨ s.users child = .null then none
  else
    some ({ s with
      observers := s.observers.set o { ob with reported := ob.reported ++ [child] }
      }.childAdded ob (s.users child))

def step (s : Service) (e : ServiceEvent) : Option Done :=
  if s.raised.isSome then none
  else
    match e with
    | .call caller stringTime c => some (s.call caller stringTime c)
    | .answer k r =>
      (s.pending[k]?).bind fun p =>
        if s.answers p.request r then
          some (if refuses p.request r then
            { s with pending := s.pending.eraseIdx k }.raise .noAccessToken
          else (s.answer k p.caller r, []))
        else none
    | .complete k stringTime => (s.replies[k]?).map (s.complete k stringTime)
    | .dialog k result => (s.pending[k]?).bind (s.closeDialog k result)
    | .childAdded o child => (s.observers[o]?).bind (s.reportChild o child)
    | .remoteRecord uid d =>
      some ({ s with users := Function.update s.users uid (.ofDict d) }, [])
    | .remoteField uid k v =>
      some ({ s with users := Function.update s.users uid ((s.users uid).setField k v) }, [])

def machine : Machine Service ServiceEvent Effect := ⟨step⟩

/-- A fresh process: nothing cached, nothing under way. The database, the
persisted sign-in and the persisted token are whatever they are. -/
structure Launch (s : Service) : Prop where
  pending : s.pending = []
  replies : s.replies = []
  observers : s.observers = []
  newUser : s.newUser = none
  mDownloadedURL : s.mDownloadedURL = none
  raised : s.raised = none

def signupRecord (uid : Uid) : Dict :=
  savedRecord uid "09/01/2019" (some (uid ++ "@mail.com")) (some uid) (some unchosen) (some " ")
    (some "default.jpg") (some unchosen) (some "false") (some "true")

def launch (currentUser : Option Uid) (ids : List Uid) : Service where
  users uid := if uid ∈ ids then .dict (signupRecord uid) else .null
  currentUser := currentUser
  currentAccessToken := none
  pending := []
  replies := []
  observers := []
  newUser := none
  mDownloadedURL := none
  raised := none

theorem launch_launch (currentUser : Option Uid) (ids : List Uid) :
    Launch (launch currentUser ids) := ⟨rfl, rfl, rfl, rfl, rfl, rfl⟩

end Service

abbrev ServiceMove := Move Service ServiceEvent Effect

abbrev ServiceHistory := List ServiceMove

end Mioto
