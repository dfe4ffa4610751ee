import Mioto.SignupGate
import Mioto.Simulation

/-! Where a password goes. The screens measure it and compare it with the other one, and hand
it to the authentication SDK, and the linking dialog logs it. The app cannot tell one password
from another of the same length, so two runs that differ in their passwords only differ in
nothing else. -/

namespace Mioto

/-- A renaming of passwords that the two checks do not notice. -/
structure Disguise (f : String → String) : Prop where
  injective : Function.Injective f
  length : ∀ x, utf16Length (f x) = utf16Length x

theorem Disguise.empty {f : String → String} (hf : Disguise f) : f "" = "" :=
  utf16Length_eq_zero.mp ((hf.length "").trans (by decide))

/-! ### What a renaming of the passwords does to each part -/

section

variable (f : String → String)

def SigninScreen.mask (sc : SigninScreen) : SigninScreen := { sc with password := f sc.password }

def SignupScreen.mask (sc : SignupScreen) : SignupScreen :=
  { sc with password := f sc.password, rePassword := f sc.rePassword }

def Screen.mask : Screen → Screen
  | .signin sc => .signin (sc.mask f)
  | .signup sc => .signup (sc.mask f)
  | sc => sc

def Call.mask : Call → Call
  | .emailLinking password => .emailLinking (f password)
  | .signupWithEmail email pass username => .signupWithEmail email (f pass) username
  | .signinWithEmail email pass => .signinWithEmail email (f pass)
  | c => c

def Request.mask : Request → Request
  | .createUser email password username => .createUser email (f password) username
  | .signIn email password => .signIn email (f password)
  | q => q

def Effect.mask : Effect → Effect
  | .linkEmail user email password => .linkEmail user email (f password)
  | e => e

def ServiceEvent.mask : ServiceEvent → ServiceEvent
  | .call i t c => .call i t (c.mask f)
  | e => e

def Pending.mask (p : Pending) : Pending := { p with request := p.request.mask f }

def Service.mask (s : Service) : Service := { s with pending := s.pending.map (Pending.mask f) }

def maskMove (m : ServiceMove) : ServiceMove :=
  ⟨m.before.mask f, m.event.mask f, m.after.mask f, m.out.map (Effect.mask f)⟩

def TextField.mask : TextField → String → String
  | .password, text | .rePassword, text => f text
  | _, text => text

def Touch.mask : Touch → Touch
  | .typed field text => .typed field (field.mask f text)
  | .ggLinking password => .ggLinking (f password)
  | t => t

def Command.mask : Command → Command
  | .become sc => .become (sc.mask f)
  | .call c => .call (c.mask f)
  | .log format text => .log format (f text)
  | c => c

def Act.mask : Act → Act
  | .touch i t => .touch i (t.mask f)
  | a => a

def Event.mask (e : Event) : Event := { e with act := e.act.mask f }

def Output.mask : Output → Output
  | .service m => .service (maskMove f m)
  | .log format text => .log format (f text)
  | o => o

def App.mask (s : App) : App :=
  { s with service := s.service.mask f, screens := fun i => (s.screens i).map (Screen.mask f) }

end

variable {f : String → String}

/-! ### The services never read a password -/

namespace Service

abbrev masked (f : String → String) (r : Done) : Done :=
  Sequence.image (Service.mask f) (Effect.mask f) r

theorem andThen_mask {g g' : Service → Done} (hg : ∀ s, g' (s.mask f) = masked f (g s))
    (r : Done) : andThen (masked f r) g' = masked f (andThen r g) :=
  Sequence.andThen_image (fun _ => rfl) hg r

theorem request_mask (s : Service) (i : ScreenId) (q : Request) (o : List Effect) :
    ((s.mask f).request i (q.mask f), o.map (Effect.mask f)) = masked f (s.request i q, o) := by
  simp [Sequence.image, request, mask, Pending.mask]

theorem saveDataWithEmail_mask (s : Service) (t : String)
    (email name dob gender img number fb em : Option String) :
    (s.mask f).saveDataWithEmail t email name dob gender img number fb em =
      masked f (s.saveDataWithEmail t email name dob gender img number fb em) := by
  simp only [saveDataWithEmail, mask]
  split
  · rfl
  · split <;> rfl

theorem call_mask (s : Service) (i : ScreenId) (t : String) (c : Call) :
    (s.mask f).call i t (c.mask f) = masked f (s.call i t c) := by
  cases c with
  | saveDataWithEmail => exact saveDataWithEmail_mask ..
  | updateDataWithName =>
    simp only [call, Call.mask, updateDataWithName, mask]
    split
    · rfl
    · split <;> rfl
  | fetchData =>
    simp only [call, Call.mask, fetchData, mask]
    split
    · rfl
    · exact request_mask s i (.fetch _) []
  | uploadProfileImage image => exact request_mask s i (.putData s.currentUser image) []
  | loginWithFacebook => exact request_mask { s with currentAccessToken := none } i .loginDialog []
  | fbLinking => exact request_mask s i (.linkDialog s.currentUser) []
  | emailLinking password =>
    simp only [call, Call.mask, emailLinking, mask]
    split
    · rfl
    · exact request_mask s i (.linkEmail _ _) [.linkEmail _ _ password]
  | signupWithEmail email pass username =>
    exact request_mask s i (.createUser email pass username) []
  | signinWithEmail email pass => exact request_mask s i (.signIn email pass) []
  | resetPasswordWithEmail email => exact request_mask s i (.resetPassword email) []
  | logout =>
    exact (apply_ite (masked f) _ (s.send _) (send { s with currentUser := none } _)).symm
  | fetchAllData => rfl

theorem linkFlag_mask (s : Service) (k : Key) (m : Int → Message) (error : Bool) :
    (s.mask f).linkFlag k m error = masked f (s.linkFlag k m error) := by
  simp only [linkFlag, mask]
  split_ifs
  · rfl
  · split
    · rfl
    · exact andThen_mask (g := (·.send (m 1))) (fun _ => rfl) (s.setField _ k (some "true"))

theorem completion_mask (s : Service) (t : String) (i : ScreenId) (r : Reply) :
    (s.mask f).completion t i r = masked f (s.completion t i r) := by
  cases r with
  | fetched u n => cases n <;> rfl
  | putData u error =>
    cases error
    · exact request_mask s i (.downloadURL u) []
    · rfl
  | downloadURL u token =>
    cases token with
    | none => rfl
    | some token =>
      have hsave : ({ s.mask f with mDownloadedURL := some (storageURL u token) }).saveImg =
          masked f { s with mDownloadedURL := some (storageURL u token) }.saveImg := by
        simp only [saveImg, mask]
        split <;> rfl
      simp only [completion, hsave]
      exact andThen_mask (g := (·.send (.uploadProfileImageStatus 1))) (fun _ => rfl) _
  | graphMe result =>
    rcases result with _ | _ | email
    · rfl
    · rfl
    · exact request_mask s i (.fetchProviders email s.currentAccessToken) []
  | providers credential ps => exact request_mask s i (.signInFacebook credential ps.isSome) []
  | signedInFacebook known result =>
    cases known with
    | true => rfl
    | false =>
      cases result with
      | none => rfl
      | some user =>
        simp only [completion, registerFacebook, saveDataWithEmail_mask]
        exact andThen_mask (g := (·.send (.loginFbWithStatus 1))) (fun _ => rfl) _
  | linkedFacebook | linkedEmail => exact linkFlag_mask ..
  | fetchCancelled | createdUser | signedIn | resetSent => rfl

theorem childAdded_mask (s : Service) (ob : Observer) (n : Node) :
    (s.mask f).childAdded ob n = masked f (s.childAdded ob n) := by
  cases n with
  | dict d =>
    simp only [childAdded]
    split_ifs <;> rfl
  | null | leaf => rfl

theorem answers_mask (s : Service) (q : Request) (r : Reply) :
    (s.mask f).answers (q.mask f) r = s.answers q r := by
  cases q <;> cases r <;> rfl

theorem refuses_mask (q : Request) (r : Reply) : refuses (q.mask f) r = refuses q r := by
  cases q <;> rfl

theorem complete_mask (s : Service) (k : Nat) (t : String) (w : Waiting) :
    (s.mask f).complete k t w = masked f (s.complete k t w) :=
  completion_mask { s with replies := s.replies.eraseIdx k } t w.caller w.reply

theorem mask_eraseIdx (s : Service) (k : Nat) :
    { s.mask f with pending := (s.mask f).pending.eraseIdx k } =
      Service.mask f { s with pending := s.pending.eraseIdx k } := by
  simp only [mask]
  rw [List.eraseIdx_map]

theorem loginHandler_mask (s : Service) (i : ScreenId) (result : DialogResult) :
    (s.mask f).loginHandler i result = masked f (s.loginHandler i result) := by
  cases result with
  | error => rfl
  | cancelled =>
    exact (congrArg (ite _ · _) (request_mask s i .graphMe [])).trans
      (apply_ite (masked f) _ (s.request i .graphMe, []) (s, [])).symm
  | granted token =>
    exact request_mask { s with currentAccessToken := some token } i .graphMe []

theorem linkCurrentToken_mask (s : Service) (i : ScreenId) (starter : Option Uid)
    (dialog : DialogResult) :
    (s.mask f).linkCurrentToken i starter dialog =
      masked f (s.linkCurrentToken i starter dialog) := by
  simp only [linkCurrentToken, mask]
  split
  · rfl
  · next user _ =>
    exact request_mask s i (.linkFacebook user s.currentAccessToken starter dialog)
      [.linkFacebook user s.currentAccessToken]

theorem linkHandler_mask (s : Service) (i : ScreenId) (starter : Option Uid)
    (result : DialogResult) :
    (s.mask f).linkHandler i starter result = masked f (s.linkHandler i starter result) := by
  cases result with
  | error => rfl
  | cancelled => exact linkCurrentToken_mask s i starter .cancelled
  | granted token =>
    exact linkCurrentToken_mask { s with currentAccessToken := some token } i starter _

theorem closeDialog_mask (s : Service) (k : Nat) (result : DialogResult) (p : Pending) :
    (s.mask f).closeDialog k result (p.mask f) = (s.closeDialog k result p).map (masked f) := by
  obtain ⟨q, i⟩ := p
  have hs := s.mask_eraseIdx (f := f) k
  cases q
  case loginDialog =>
    simp only [closeDialog, Pending.mask, Request.mask, hs, loginHandler_mask, Option.map_some]
  case linkDialog =>
    simp only [closeDialog, Pending.mask, Request.mask, hs, linkHandler_mask, Option.map_some]
  all_goals rfl

theorem reportChild_mask (s : Service) (o : Nat) (child : Uid) (ob : Observer) :
    (s.mask f).reportChild o child ob = (s.reportChild o child ob).map (masked f) := by
  have hc := childAdded_mask (f := f) { s with
    observers := s.observers.set o { ob with reported := ob.reported ++ [child] } } ob
    (s.users child)
  unfold reportChild
  rw [show (s.mask f).users = s.users from rfl]
  split_ifs
  · rfl
  · exact congrArg some hc

theorem step_mask (s : Service) (e : ServiceEvent) :
    (s.mask f).step (e.mask f) = (s.step e).map (masked f) := by
  unfold step
  rw [show (s.mask f).raised = s.raised from rfl]
  split_ifs
  · rfl
  · cases e with
    | call i t c => exact congrArg some (call_mask s i t c)
    | answer k r =>
      simp only [ServiceEvent.mask,
        show (s.mask f).pending = s.pending.map (Pending.mask f) from rfl, List.getElem?_map]
      cases s.pending[k]? with
      | none => rfl
      | some p =>
        simp only [Option.map_some, Option.bind_some]
        rw [show (p.mask f).request = p.request.mask f from rfl, answers_mask, refuses_mask]
        split_ifs
        · exact congrArg (fun s : Service => some (s.raise .noAccessToken)) (s.mask_eraseIdx k)
        · refine congrArg some (Prod.ext ?_ rfl)
          exact congrArg (fun s : Service => { s with
            replies := s.replies ++ [(⟨r, p.caller⟩ : Waiting)]
            currentUser := (signedInBy r).or s.currentUser }) (s.mask_eraseIdx k)
        · rfl
    | complete k t =>
      simp only [ServiceEvent.mask, show (s.mask f).replies = s.replies from rfl, Option.map_map]
      exact congrArg (s.replies[k]?.map ·) (funext fun w => complete_mask s k t w)
    | dialog k result =>
      simp only [ServiceEvent.mask,
        show (s.mask f).pending = s.pending.map (Pending.mask f) from rfl, List.getElem?_map]
      cases s.pending[k]? with
      | none => rfl
      | some p => exact closeDialog_mask s k result p
    | childAdded o child =>
      simp only [ServiceEvent.mask, show (s.mask f).observers = s.observers from rfl]
      cases s.observers[o]? with
      | none => rfl
      | some ob => exact reportChild_mask s o child ob
    | remoteRecord | remoteField => rfl

end Service

/-! ### The screens measure it and compare it -/

theorem Kind.mask_loaded (hf : Disguise f) (user : Option Profile) (k : Kind) :
    (k.loaded user).mask f = k.loaded user := by
  cases k <;>
    simp [Kind.loaded, Screen.mask, SigninScreen.mask, SignupScreen.mask, SigninScreen.loaded,
      SignupScreen.loaded, hf.empty]

theorem Kind.mask_viewDidLoad (k : Kind) (didLogin : Bool) :
    (k.viewDidLoad didLogin).map (Command.mask f) = k.viewDidLoad didLogin := by
  cases k <;> cases didLogin <;> rfl

theorem SigninScreen.mask_clear (hf : Disguise f) (sc : SigninScreen) :
    sc.clear.mask f = (sc.mask f).clear := by
  simp [SigninScreen.clear, SigninScreen.mask, hf.empty]

theorem SignupScreen.mask_clear (hf : Disguise f) (sc : SignupScreen) (type : String) :
    (sc.clear type).mask f = (sc.mask f).clear type := by
  unfold SignupScreen.clear
  split_ifs <;> simp [SignupScreen.mask, SignupScreen.uncheckCheckBox, hf.empty]

theorem SigninScreen.mask_authStatus (hf : Disguise f) (sc : SigninScreen) (status : Int) :
    (sc.mask f).authStatus status = (sc.authStatus status).map (Command.mask f) := by
  unfold SigninScreen.authStatus
  rw [show (sc.mask f).email = sc.email from rfl]
  split_ifs <;> simp [Command.mask, Screen.mask, mask_clear hf]
  exact ⟨rfl, rfl⟩

theorem SignupScreen.mask_authStatus (hf : Disguise f) (sc : SignupScreen) (status : Int) :
    (sc.mask f).authStatus status = (sc.authStatus status).map (Command.mask f) := by
  unfold SignupScreen.authStatus
  rw [show (sc.mask f).username = sc.username from rfl]
  split_ifs <;> simp [Command.mask, Screen.mask, mask_clear hf]
  exact ⟨rfl, rfl⟩

theorem Screen.mask_receive (hf : Disguise f) (user : Option Profile) (sc : Screen) (m : Message) :
    (sc.mask f).receive user m = (sc.receive user m).map (List.map (Command.mask f)) := by
  cases sc with
  | menu =>
    cases m with
    | loginFbWithStatus status =>
      simp only [Screen.receive, Screen.mask, MenuScreen.loginFbWithStatus]
      split_ifs <;> rfl
    | _ => rfl
  | signin sc =>
    cases m with
    | authStatus status => exact congrArg some (SigninScreen.mask_authStatus hf sc status)
    | _ => rfl
  | signup sc =>
    cases m with
    | authStatus status => exact congrArg some (SignupScreen.mask_authStatus hf sc status)
    | _ => rfl
  | forgotPassword sc =>
    cases m with
    | authStatus status =>
      simp only [Screen.receive, Screen.mask, ForgotPasswordScreen.authStatus]
      split_ifs <;> rfl
    | _ => rfl
  | profile sc =>
    cases m with
    | profileDataRecieved status =>
      simp only [Screen.receive, Screen.mask, ProfileScreen.profileDataRecieved]
      split <;> rfl
    | authStatus status =>
      simp only [Screen.receive, Screen.mask, ProfileScreen.authStatus]
      split_ifs <;> rfl
    | linkingFBStatus status =>
      simp only [Screen.receive, Screen.mask, ProfileScreen.linkingFBStatus]
      split_ifs <;> rfl
    | linkingGGStatus status =>
      simp only [Screen.receive, Screen.mask, ProfileScreen.linkingGGStatus]
      split_ifs <;> rfl
    | _ => rfl
  | edit sc =>
    cases m with
    | profileDataRecieved status =>
      simp only [Screen.receive, Screen.mask, EditProfileScreen.profileDataRecieved]
      split_ifs <;> rfl
    | _ => rfl
  | viewProfile sc =>
    cases m with
    | uploadProfileImageStatus status =>
      simp only [Screen.receive, Screen.mask, ViewProfileScreen.uploadProfileImageStatus]
      split_ifs <;> rfl
    | _ => rfl
  | friends sc => cases m <;> rfl

namespace App

abbrev masked (f : String → String) (r : Outcome) : Outcome :=
  Sequence.image (App.mask f) (Output.mask f) r

theorem andThen_mask {g g' : App → Outcome} (hg : ∀ s, g' (s.mask f) = masked f (g s))
    (r : Outcome) : andThen (masked f r) g' = masked f (andThen r g) :=
  Sequence.andThen_image (fun _ => rfl) hg r

theorem runAll_mask {α : Type} {g : App → α → Outcome} {j : α → α}
    (hg : ∀ s a, g (s.mask f) (j a) = masked f (g s a)) (s : App) (l : List α) :
    runAll g (s.mask f) (l.map j) = masked f (runAll g s l) :=
  Sequence.runAll_image (fun _ => rfl) hg s l

theorem mask_update (s : App) (i : ScreenId) (sc : Option Screen) :
    { s.mask f with screens := Function.update (s.mask f).screens i (sc.map (Screen.mask f)) } =
      App.mask f { s with screens := Function.update s.screens i sc } := by
  have hs : Function.update (s.mask f).screens i (sc.map (Screen.mask f)) =
      fun j => (Function.update s.screens i sc j).map (Screen.mask f) := by
    funext j
    by_cases hj : j = i
    · subst hj
      simp
    · simp [hj, mask]
  rw [hs]
  rfl

theorem serve_mask (s : App) (e : ServiceEvent) :
    (s.mask f).serve (e.mask f) = masked f (s.serve e) := by
  unfold serve
  rw [show (s.mask f).service = s.service.mask f from rfl, Service.step_mask]
  cases s.service.step e <;> rfl

theorem appear_mask (hf : Disguise f) (s : App) (k : Kind) (j : ScreenId) :
    (s.mask f).appear k j = masked f (s.appear k j) := by
  have hl := mask_update (f := f) s j (some (k.loaded s.service.newUser))
  rw [Option.map_some, k.mask_loaded hf] at hl
  exact Prod.ext hl rfl

theorem perform_mask_of_not_makes (t : String) (fresh : List ScreenId) (i : ScreenId) (s : App)
    {c : Command} (hm : makes c = false) :
    perform t fresh i (s.mask f) (c.mask f) = masked f (perform t fresh i s c) := by
  cases c with
  | become sc =>
    simp only [Command.mask, perform_become]
    exact Prod.ext (mask_update s i (some sc)) rfl
  | call c => cases fresh <;> exact serve_mask s (.call i t c)
  | push | presentForgotPassword => simp [makes] at hm
  | pop =>
    cases fresh <;> simp only [Command.mask, perform, show (s.mask f).stack = s.stack from rfl] <;>
      split <;> (try split_ifs) <;> rfl
  | dismiss =>
    simp only [Command.mask, perform_dismiss, show (s.mask f).presented = s.presented from rfl]
    split_ifs <;> rfl
  | listenFireBase | listenAuth | dispatchAfter | beginIgnoring | endIgnoring | alert | log |
      raise =>
    cases fresh <;> rfl

theorem perform_mask (hf : Disguise f) (t : String) (fresh : List ScreenId) (i : ScreenId)
    (s : App) (c : Command) :
    perform t fresh i (s.mask f) (c.mask f) = masked f (perform t fresh i s c) := by
  induction fresh generalizing i s c with
  | nil =>
    cases hm : makes c with
    | false => exact perform_mask_of_not_makes t [] i s hm
    | true =>
      cases c <;> simp [makes] at hm
      all_goals rfl
  | cons j fresh ih =>
    have hload : ∀ k s' b, runAll (perform t fresh j) (App.mask f s') (Kind.viewDidLoad b k) =
        masked f (runAll (perform t fresh j) s' (Kind.viewDidLoad b k)) := by
      intro k s' b
      have hh := runAll_mask (ih j) s' (Kind.viewDidLoad b k)
      rwa [k.mask_viewDidLoad] at hh
    cases hm : makes c with
    | false => exact perform_mask_of_not_makes t _ i s hm
    | true =>
      cases c <;> simp [makes] at hm
      case push k =>
        simp only [Command.mask, perform_push, show (s.mask f).stack = s.stack from rfl]
        split_ifs
        · have ha := appear_mask hf { s with stack := j :: s.stack } k j
          exact (congrArg (andThen · _) ha).trans (andThen_mask (fun s' => hload k s' _) _)
        · rfl
      case presentForgotPassword =>
        simp only [Command.mask, perform_present, show (s.mask f).stack = s.stack from rfl,
          show (s.mask f).presented = s.presented from rfl]
        split_ifs
        · have ha := appear_mask hf { s with presented := some j } .forgotPassword j
          exact (congrArg (andThen · _) ha).trans (andThen_mask (fun s' => hload _ s' _) _)
        · rfl

theorem deliver_mask (hf : Disguise f) (t : String) (fresh : List ScreenId) (s : App)
    (m : Message) : deliver t fresh (s.mask f) m = masked f (deliver t fresh s m) := by
  have hl : (s.mask f).listening m = (s.listening m).map fun x => (x.1, x.2.mask f) := by
    simp only [listening, show (s.mask f).listener m = s.listener m from by cases m <;> rfl]
    cases s.listener m with
    | none => rfl
    | some i => simp [mask, Function.comp_def]
  unfold deliver
  rw [hl]
  cases s.listening m with
  | none => rfl
  | some x =>
    simp only [Option.map_some, show (s.mask f).service.newUser = s.service.newUser from rfl,
      Screen.mask_receive hf]
    cases x.2.receive s.service.newUser m with
    | none => rfl
    | some cs =>
      simp only [Option.map_some, runAll_mask (perform_mask hf t fresh x.1)]
      rfl

theorem messages_mask (o : Output) : (o.mask f).messages = o.messages := by
  cases o with
  | service m =>
    have hm : ∀ x : Effect, (x.mask f).message = x.message := fun x => by cases x <;> rfl
    simp [Output.mask, Output.messages, maskMove, List.filterMap_map, hm]
  | _ => rfl

theorem settle_mask (hf : Disguise f) (t : String) (fresh : List ScreenId) (r : Outcome) :
    settle t fresh (masked f r) = masked f (settle t fresh r) := by
  have ho : (masked f r).2.flatMap Output.messages = r.2.flatMap Output.messages := by
    simp [Sequence.image, List.flatMap_map, messages_mask]
  unfold settle
  rw [ho]
  refine andThen_mask (fun s => ?_) r
  simpa using runAll_mask (j := id) (deliver_mask hf t fresh) s (r.2.flatMap Output.messages)

theorem childAdded_mask (hf : Disguise f) (t : String) (fresh : List ScreenId) (s : App)
    (child : Uid) :
    (s.mask f).childAdded t fresh child = masked f (s.childAdded t fresh child) := by
  have ht : ∀ s o, tell t fresh child (App.mask f s) (id o) = masked f (tell t fresh child s o) :=
    fun s o => (congrArg (settle t fresh) (serve_mask s (.childAdded o child))).trans
      (settle_mask hf t fresh _)
  have hh := runAll_mask ht s (List.range s.service.observers.length)
  rwa [List.map_id] at hh

def blank (_ : String) : String := ""

end App

namespace App

def signin : List Event :=
  script 0 [.launch, .touch 0 .menuSigninButton, .touch 2 (.typed .email "u@mail.com"),
    .touch 2 (.typed .password "secret"), .touch 2 .signinButton, .answer 0 (.signedIn (some "u")),
    .complete 0]

end App

end Mioto
