import Mioto.Loads
import Mioto.StatusCallbacks

/-! Whether the app lets go of the user. Profile screens and image uploads make the app
ignore touches, and each time one of them hears of its outcome it should end that. -/

namespace Mioto

def begun (o : List Output) : Nat :=
  o.countP fun
    | .beginIgnoring _ => true
    | _ => false

def released (o : List Output) : Nat :=
  o.countP fun
    | .endIgnoring _ => true
    | _ => false

/-- The operations that the app waits for without listening to the user: uploads, and
the fetches of Profile screens. -/
def locking (o : List Output) (x : Ticket) : Bool :=
  x.1 = .uploadProfileImage ∨ x.1 = .fetchData ∧ (x.2, Kind.profile) ∈ loads o

def outputs (h : AppHistory) : List Output := h.flatMap (·.out)

namespace App

structure LockBalanced (h : AppHistory) (s : App) : Prop where
  balance : begun (outputs h) =
    released (outputs h) + s.service.underWay (locking (outputs h))
  idle : s.service.pending = [] → s.service.replies = [] →
    begun (outputs h) = released (outputs h)

def AlwaysBalanced (h : AppHistory) : Prop := Machine.Always LockBalanced h

end App

def ServiceEvent.fetcher : ServiceEvent → Option ScreenId
  | .call i _ .fetchData => some i
  | _ => none

/-- The joined date that a Profile screen finds in the cache when it hears of a reply. -/
def Reply.shownDate (s : Service) : Reply → Option String
  | .fetched _ (.dict d) => d .mUserJoinedDate
  | .fetchCancelled _ => s.newUser.bind Profile.mUserJoinedDate
  | _ => none

namespace App

def completed (s : App) : Act → Option Waiting
  | .complete k => s.service.replies[k]?
  | _ => none

/-- The class of the live listener of `AccountBusiness`. -/
def listeningKind (s : App) : Option Kind :=
  (s.listening (.profileDataRecieved 1)).map fun x => x.2.kind

/-- No upload fails, and the URL of an uploaded image comes to an image screen. -/
def uploadSucceeds (s : App) : Reply → Bool
  | .putData _ error => !error
  | .downloadURL _ token =>
    token.isSome && s.service.currentUser.isSome && s.listeningKind = some .viewProfile
  | _ => true

/-- What an event has to be like. A Profile screen is loaded while somebody is signed in;
the fetch of a Profile screen, and no other, comes to a Profile screen that finds a
joined date; uploads succeed. -/
structure ReleasesLock (older : AppHistory) (m : AppMove) : Prop where
  signedIn : ∀ sm ∈ serviceMoves m.out, ∀ i ∈ sm.event.fetcher,
    (i, Kind.profile) ∈ loads m.out → sm.before.currentUser ≠ none
  fetched : ∀ w ∈ m.before.completed m.event.act, w.reply.method = some .fetchData →
    ((w.caller, Kind.profile) ∈ loads (outputs older) ↔
      m.before.listeningKind = some .profile ∧ (w.reply.shownDate m.before.service).isSome)
  uploaded : ∀ w ∈ m.before.completed m.event.act, m.before.uploadSucceeds w.reply

instance (older : AppHistory) (m : AppMove) : Decidable (ReleasesLock older m) :=
  decidable_of_iff
    ((∀ sm ∈ serviceMoves m.out, ∀ i ∈ sm.event.fetcher,
        (i, Kind.profile) ∈ loads m.out → sm.before.currentUser ≠ none) ∧
      (∀ w ∈ m.before.completed m.event.act, w.reply.method = some .fetchData →
        ((w.caller, Kind.profile) ∈ loads (outputs older) ↔
          m.before.listeningKind = some .profile ∧
            (w.reply.shownDate m.before.service).isSome)) ∧
      ∀ w ∈ m.before.completed m.event.act, m.before.uploadSucceeds w.reply)
    ⟨fun ⟨h, h', h''⟩ => ⟨h, h', h''⟩, fun h => ⟨h.signedIn, h.fetched, h.uploaded⟩⟩

end App

/-- A command that neither locks the app nor starts what it may wait for. -/
def Command.plain : Command → Bool
  | .beginIgnoring | .call .fetchData | .call (.uploadProfileImage _) => false
  | _ => true

namespace App

/-! ### The app ignores touches once for each operation it waits for -/

variable {t : String} {o : List Output}

/-- `o` tells of each screen made in `r` whether it is a Profile screen. -/
def Knows (o : List Output) (r : Outcome) : Prop :=
  ∀ x ∈ loads r.2, (x.1, Kind.profile) ∈ loads o ↔ x.2 = .profile

/-- `r` locks the app once for each operation that it starts and the app waits for. -/
def LocksOnce (o : List Output) (r : Outcome) : Prop :=
  Knows o r → begun r.2 = Service.issued (serviceMoves r.2) (locking o)

theorem closed_locksOnce (o : List Output) : Sequence.Closed fun _ r => LocksOnce o r where
  refl _ _ := rfl
  trans hr hr' hk := by
    have h₁ := hr fun x hx => hk x (by simp [hx])
    have h₂ := hr' fun x hx => hk x (by simp [hx])
    simp only [begun, Service.issued, serviceMoves_append, List.countP_append] at h₁ h₂ ⊢
    omega

theorem locksOnce_quiet {r : Outcome} (hb : begun r.2 = 0)
    (hi : ∀ sm ∈ serviceMoves r.2, (Service.issues sm.event).any (locking o) = false) :
    LocksOnce o r := by
  intro _
  rw [hb, eq_comm, Service.issued, List.countP_eq_zero]
  exact fun sm hsm => by simp [hi sm hsm]

theorem locksOnce_serve (s : App) {e : ServiceEvent}
    (h : (Service.issues e).any (locking o) = false) : LocksOnce o (s.serve e) := by
  refine locksOnce_quiet ?_ fun sm hsm => by rw [serviceMoves_serve s e sm hsm, h]
  unfold serve
  split <;> rfl

theorem issues_plain {i : ScreenId} {c : Call} (h : Command.plain (.call c)) :
    (Service.issues (.call i t c)).any (locking o) = false := by
  cases c <;> first | rfl | cases h

theorem locksOnce_of_not_makes (fresh : List ScreenId) (i : ScreenId) (s : App) {c : Command}
    (hp : c.plain) (hm : makes c = false) : LocksOnce o (perform t fresh i s c) := by
  have hd : Deeds (fun _ r => LocksOnce o r) t [] fun _ c => c.plain ∧ makes c = false :=
    { closed := closed_locksOnce o
      loads := fun j hj => absurd hj List.not_mem_nil
      deed := by
        intro s r hd
        cases hd with
        | call h => exact locksOnce_serve s (issues_plain h.1)
        | beginIgnoring h => cases h.1
        | push h => cases h.2
        | present h => cases h.2
        | _ => exact locksOnce_quiet rfl (by simp [serviceMoves]) }
  exact hd.perform_of_not_makes fresh (i := i) s ⟨hp, hm⟩ hm

theorem locksOnce_appear {s : App} {k : Kind} {j : ScreenId} :
    LocksOnce o (s.appear k j) := locksOnce_quiet rfl (by simp [appear, serviceMoves])

theorem locksOnce_loadProfile (fresh : List ScreenId) (j : ScreenId) (s : App) :
    LocksOnce o (andThen (s.appear .profile j) fun s' =>
      runAll (perform t fresh j) s' ProfileScreen.viewDidLoad) := by
  cases hc : (s.appear .profile j).1.crashed with
  | true =>
    rw [andThen, Sequence.andThen_of_stop crashed hc]
    exact locksOnce_appear
  | false =>
    rw [andThen, Sequence.andThen_of_go crashed hc, ProfileScreen.viewDidLoad,
      runAll_cons_of_go (by rw [perform_beginIgnoring]; exact hc),
      runAll_cons_of_go (by rw [perform_listenFireBase, perform_beginIgnoring]; exact hc),
      runAll_cons_of_go (by simp only [perform_listenFireBase, perform_beginIgnoring,
        perform_listenAuth]; exact hc)]
    simp only [perform_beginIgnoring, perform_listenFireBase, perform_listenAuth, runAll,
      Sequence.runAll_singleton, perform_call]
    rw [serve_call (by exact hc)]
    intro hk
    have hl : (j, Kind.profile) ∈ loads o :=
      (hk (j, .profile) (List.mem_cons_self)).mpr rfl
    simp [appear, begun, serviceMoves, Service.issued, Service.issues, Call.method, locking, hl]

theorem locksOnce_loadEdit (fresh : List ScreenId) (j : ScreenId) (s : App) :
    LocksOnce o (andThen (s.appear .edit j) fun s' =>
      runAll (perform t fresh j) s' EditProfileScreen.viewDidLoad) := by
  cases hc : (s.appear .edit j).1.crashed with
  | true =>
    rw [andThen, Sequence.andThen_of_stop crashed hc]
    exact locksOnce_appear
  | false =>
    rw [load_edit (by exact hc)]
    intro hk
    have hl : (j, Kind.profile) ∉ loads o := fun hl => by
      cases (hk (j, .edit) (List.mem_cons_self)).mp hl
    simp [begun, serviceMoves, Service.issued, Service.issues, Call.method, locking, hl]

theorem plain_viewDidLoad {k : Kind} (hp : k ≠ .profile) (he : k ≠ .edit) (didLogin : Bool) :
    ∀ c ∈ Kind.viewDidLoad didLogin k, c.plain := by
  cases k <;> cases didLogin <;> first | exact absurd rfl hp | exact absurd rfl he | decide

theorem locksOnce_perform (fresh : List ScreenId) (i : ScreenId) (s : App) {c : Command}
    (hp : c.plain) : LocksOnce o (perform t fresh i s c) := by
  have hload : ∀ j fresh, (∀ s c, c.plain → LocksOnce o (perform t fresh j s c)) →
      ∀ k (s' : App) (didLogin : Bool), LocksOnce o
        (andThen (s'.appear k j) fun s'' =>
          runAll (perform t fresh j) s'' (Kind.viewDidLoad didLogin k)) := by
    intro j fresh ih k s' didLogin
    by_cases hpr : k = .profile
    · subst hpr
      exact locksOnce_loadProfile fresh j s'
    by_cases hed : k = .edit
    · subst hed
      exact locksOnce_loadEdit fresh j s'
    exact (closed_locksOnce o).andThen (s := s') locksOnce_appear
      ((closed_locksOnce o).runAll
        (fun s c hc => ih s c (plain_viewDidLoad hpr hed didLogin c hc)) _)
  exact perform_induct (motive := fun _ _ _ c r => c.plain → LocksOnce o r)
    (fun _ _ s _ _ _ => (closed_locksOnce o).refl s)
    (fun fresh i s _ hm hp => locksOnce_of_not_makes fresh i s hp hm)
    (fun j fresh _ _ k _ ih _ => hload j fresh ih k _ _)
    (fun j fresh _ _ ih _ => hload j fresh ih .forgotPassword _ _) fresh i s c hp

theorem locksOnce_performAll (fresh : List ScreenId) (i : ScreenId) (s : App)
    {cs : List Command} (hp : ∀ c ∈ cs, c.plain) :
    LocksOnce o (runAll (perform t fresh i) s cs) :=
  (closed_locksOnce o).runAll (fun s c hc => locksOnce_perform fresh i s (hp c hc)) s

theorem plain_of_receive {sc : Screen} {user : Option Profile} {m : Message}
    {cs : List Command} (h : sc.receive user m = some cs) : ∀ c ∈ cs, c.plain := by
  intro c hc
  cases Screen.answers_of_receive h c hc <;> rfl

theorem plain_of_touched {sc : Screen} {touch : Touch} {cs : List Command}
    (h : sc.touched touch = some cs) :
    (∀ c ∈ cs, c.plain) ∨ ∃ image, cs = ViewProfileScreen.didFinishPicking image := by
  cases Screen.touched_cases h with
  | didFinishPicking _ image => exact .inr ⟨image, rfl⟩
  | _ => simp [Command.plain]

theorem locksOnce_picked {s : App} (h : s.crashed = false) (fresh : List ScreenId) (i : ScreenId)
    (image : String) :
    LocksOnce o (runAll (perform t fresh i) s (ViewProfileScreen.didFinishPicking image)) := by
  have hc : (s.serve (.call i t (.uploadProfileImage image))).1.crashed = false := by
    rw [serve_call h]
    exact h
  rw [ViewProfileScreen.didFinishPicking, runAll_cons_of_go (by rw [perform_call]; exact hc),
    runAll_cons_of_go (by rw [perform_become, perform_call]; exact hc)]
  simp only [perform_become, runAll, Sequence.runAll_singleton, perform_call,
    perform_beginIgnoring]
  rw [serve_call h]
  intro _
  simp [begun, serviceMoves, Service.issued, Service.issues, Call.method, locking]

theorem locksOnce_deliver (fresh : List ScreenId) (s : App) (m : Message) :
    LocksOnce o (deliver t fresh s m) := by
  have hone : ∀ i, LocksOnce o (s, [.delivered i m]) := fun i =>
    locksOnce_quiet rfl (by simp [serviceMoves])
  unfold deliver
  cases s.listening m with
  | none => exact (closed_locksOnce o).refl s
  | some x =>
    obtain ⟨i, sc⟩ := x
    cases hc : sc.receive s.service.newUser m with
    | none =>
      simp only [hc]
      exact locksOnce_quiet rfl (by simp [serviceMoves])
    | some cs =>
      simp only [hc]
      exact (closed_locksOnce o).trans (s := s) (hone i)
        (locksOnce_performAll fresh i s (plain_of_receive hc))

theorem locksOnce_settle {r : Outcome} (h : LocksOnce o r) (fresh : List ScreenId) :
    LocksOnce o (settle t fresh r) :=
  (closed_locksOnce o).andThen (s := r.1)
    (f := fun s => runAll (deliver t fresh) s (r.2.flatMap Output.messages)) h
    ((closed_locksOnce o).runAll (fun s m _ => locksOnce_deliver fresh s m) _)

theorem locksOnce_step {s : App} {e : Event} {r : Outcome} (h : s.step e = some r)
    (o : List Output) : LocksOnce o r := by
  obtain ⟨hn, hs, -, hd⟩ := step_taken h
  have hc := (step_taken h).running
  cases hd with
  | launch ha hst =>
    exact (closed_locksOnce o).andThen (s := s) locksOnce_appear
      (locksOnce_performAll _ _ _ (plain_viewDidLoad (by decide) (by decide) _))
  | @touch i touch sc cs ha hi hsc hcs =>
    refine locksOnce_settle ?_ _
    rcases plain_of_touched hcs with hp | ⟨image, rfl⟩
    · exact locksOnce_performAll _ i _ hp
    · exact locksOnce_picked hc _ i image
  | pop | release => exact locksOnce_quiet rfl (by simp [serviceMoves])
  | @timer i sc =>
    refine locksOnce_performAll _ i _ fun c hm => ?_
    cases hk : sc.kind <;> simp [hk, Kind.deferred] at hm <;> rw [hm] <;> rfl
  | silent ha =>
    refine locksOnce_serve _ ?_
    rcases Act.silent_eq_some ha with ⟨k, q, -, rfl⟩ | ⟨u, d, -, rfl⟩ | ⟨u, k, v, -, rfl⟩ <;> rfl
  | report ha =>
    refine locksOnce_settle (locksOnce_serve _ ?_) _
    rcases Act.report_eq_some ha with ⟨k, -, rfl⟩ | ⟨k, q, -, rfl⟩ <;> rfl
  | childAdded =>
    exact (closed_locksOnce o).runAll
      (fun s _ _ => locksOnce_settle (locksOnce_serve s rfl) _) (s.reserve e)

/-! ### When the app listens again -/

/-- The listener ends the ignoring of touches when it hears of `m`. -/
def releases (s : App) : Message → Bool
  | .profileDataRecieved _ =>
    s.listeningKind = some .profile && (s.service.newUser.bind Profile.mUserJoinedDate).isSome
  | .uploadProfileImageStatus status => s.listeningKind = some .viewProfile && status ≠ 0
  | _ => false

theorem closed_releasedNothing : Sequence.Closed fun (_ : App) (r : Outcome) =>
    released r.2 = 0 where
  refl _ := rfl
  trans hr hr' := by
    simp only [released, List.countP_append] at hr hr' ⊢
    omega

theorem released_performAll (fresh : List ScreenId) (i : ScreenId) (s : App) {cs : List Command}
    (hc : ∀ c ∈ cs, c ≠ .endIgnoring) : released (runAll (perform t fresh i) s cs).2 = 0 := by
  have hd : Deeds (fun _ r => released r.2 = 0) t fresh fun _ c => c ≠ .endIgnoring :=
    { closed := closed_releasedNothing
      loads := by
        rintro j - k didLogin c hc rfl
        cases k <;> cases didLogin <;> revert hc <;> simp [Kind.viewDidLoad,
          MenuScreen.viewDidLoad, MenuScreen.autoLogin, SigninScreen.viewDidLoad,
          SignupScreen.viewDidLoad, ForgotPasswordScreen.viewDidLoad, ProfileScreen.viewDidLoad,
          EditProfileScreen.viewDidLoad, ViewProfileScreen.viewDidLoad, FriendsScreen.viewDidLoad]
      deed := by
        intro s r hd
        cases hd with
        | call =>
          unfold serve
          split <;> rfl
        | endIgnoring h => exact absurd rfl h
        | _ => rfl }
  exact hd.performAll s hc

theorem listeningKind_eq_some {s : App} {k : Kind} (h : s.listeningKind = some k) {m : Message}
    (hm : s.listener m = s.fireBaseListener) :
    ∃ i sc, s.listening m = some (i, sc) ∧ sc.kind = k := by
  obtain ⟨⟨i, sc⟩, hl, hk⟩ := Option.map_eq_some_iff.mp h
  obtain ⟨hi, hsc⟩ := listening_eq_some.mp hl
  exact ⟨i, sc, listening_eq_some.mpr ⟨hm.trans hi, hsc⟩, hk⟩

theorem deliver_of_releases (fresh : List ScreenId) {s : App} (hc : s.crashed = false)
    {m : Message} (h : s.releases m) :
    released (deliver t fresh s m).2 = 1 ∧ serviceMoves (deliver t fresh s m).2 = [] := by
  cases m with
  | profileDataRecieved status =>
    simp only [releases, Bool.and_eq_true, decide_eq_true_eq] at h
    obtain ⟨i, sc, hl, hk⟩ := listeningKind_eq_some h.1 (m := .profileDataRecieved status) rfl
    obtain ⟨date, hd⟩ := Option.isSome_iff_exists.mp h.2
    cases sc <;> cases hk
    simp only [deliver, hl, Screen.receive, ProfileScreen.profileDataRecieved, hd]
    rw [runAll_cons_of_go (by rw [perform_become]; exact hc)]
    simp only [perform_become, runAll, Sequence.runAll_singleton, perform_endIgnoring]
    exact ⟨rfl, rfl⟩
  | uploadProfileImageStatus status =>
    simp only [releases, Bool.and_eq_true, decide_eq_true_eq] at h
    obtain ⟨i, sc, hl, hk⟩ := listeningKind_eq_some h.1 (m := .uploadProfileImageStatus status) rfl
    cases sc <;> cases hk
    simp only [deliver, hl, Screen.receive, ViewProfileScreen.uploadProfileImageStatus, h.2,
      if_false]
    rw [runAll_cons_of_go (by rw [perform_endIgnoring]; exact hc),
      runAll_cons_of_go (by rw [perform_alert, perform_endIgnoring]; exact hc)]
    simp only [perform_endIgnoring, perform_alert, runAll, Sequence.runAll_singleton,
      perform_dispatchAfter]
    exact ⟨rfl, rfl⟩
  | _ => cases h

theorem listeningKind_of_listening {s : App} {m : Message} {i : ScreenId} {sc : Screen}
    (h : s.listening m = some (i, sc)) (hm : s.listener m = s.fireBaseListener) :
    s.listeningKind = some sc.kind := by
  obtain ⟨hi, hsc⟩ := listening_eq_some.mp h
  have hl : s.listening (.profileDataRecieved 1) = some (i, sc) :=
    listening_eq_some.mpr ⟨hm.symm.trans hi, hsc⟩
  rw [listeningKind, hl]
  rfl

theorem not_endIgnoring_of_receive {s : App} {m : Message} (h : s.releases m = false)
    {i : ScreenId} {sc : Screen} (hl : s.listening m = some (i, sc)) {cs : List Command}
    (hc : sc.receive s.service.newUser m = some cs) : ∀ c ∈ cs, c ≠ .endIgnoring := by
  rintro c hm rfl
  have hk := listeningKind_of_listening hl
  cases Screen.received hc with
  | @profileShown sc _ status he =>
    -- the screen is shown only when the cached profile has its date, and then `s` releases
    have hd : s.service.newUser.bind Profile.mUserJoinedDate = none := by
      simpa [releases, hk rfl, Screen.kind] using h
    simp [ProfileScreen.profileDataRecieved, hd] at he
  | uploaded _ _ hs => simp [releases, hk rfl, Screen.kind, hs] at h
  | _ => simp at hm

theorem released_of_not_releases (fresh : List ScreenId) {s : App} {m : Message}
    (h : s.releases m = false) : released (deliver t fresh s m).2 = 0 := by
  unfold deliver
  cases hl : s.listening m with
  | none => rfl
  | some x =>
    obtain ⟨i, sc⟩ := x
    cases hc : sc.receive s.service.newUser m with
    | none => simp only [hc]; rfl
    | some cs =>
      simp only [hc]
      exact released_performAll fresh i s (not_endIgnoring_of_receive h hl hc)

/-- A screen ends the ignoring of touches when the reply is completed. -/
def unlocks (s : App) : Reply → Bool
  | .fetched u n =>
    s.listeningKind = some .profile && (Reply.shownDate s.service (.fetched u n)).isSome
  | .fetchCancelled u =>
    s.listeningKind = some .profile && (Reply.shownDate s.service (.fetchCancelled u)).isSome
  | .downloadURL _ token =>
    token.isSome && s.service.currentUser.isSome && s.listeningKind = some .viewProfile
  | _ => false

theorem any_releases_complete {s : App} {k : Nat} {w : Waiting}
    (hw : s.service.replies[k]? = some w) {rr : Done}
    (hr : s.service.step (.complete k t) = some rr) :
    (s.service.announced (.complete k t)).any (releases { s with service := rr.1 }) =
      s.unlocks w.reply := by
  obtain ⟨-, w', hw', rfl⟩ := Service.step_complete hr
  obtain rfl : w = w' := by simpa [hw] using hw'
  have hk : ∀ sv : Service, listeningKind { s with service := sv } = s.listeningKind := fun _ => rfl
  simp only [Service.announced, hw, Option.bind_some]
  cases hq : w.reply with
  | fetched u n =>
    cases n with
    | dict d =>
      simp [Reply.announced, releases, hk, unlocks, Reply.shownDate, Service.complete, hq,
        Service.completion, Service.send, transformUser]
    | null | leaf => simp [Reply.announced, unlocks, Reply.shownDate]
  | fetchCancelled u =>
    simp [Reply.announced, releases, hk, unlocks, Reply.shownDate, Service.complete, hq,
      Service.completion, Service.send]
  | putData u error => cases error <;> simp [Reply.announced, releases, unlocks]
  | downloadURL u token =>
    cases token <;> cases hu : s.service.currentUser <;>
      simp [Reply.announced, releases, hk, unlocks, hu]
  | signedInFacebook known result =>
    cases known <;> cases result <;> simp [Reply.announced, releases, unlocks]
    split_ifs <;> simp [releases]
  | linkedFacebook u starter dialog error | linkedEmail u error =>
    cases error <;> simp [Reply.announced, releases, unlocks]
    split_ifs <;> simp [releases]
  | graphMe | providers | createdUser | signedIn | resetSent =>
    simp [Reply.announced, releases, unlocks]

theorem released_of_report {m : AppMove} (hm : machine.Fires m) {se : ServiceEvent}
    (hr : m.event.act.report m.event.stringTime = some se) :
    ∃ rr, m.before.service.step se = some rr ∧ released m.out =
        (if (m.before.service.announced se).any (releases { m.before with service := rr.1 })
          then 1 else 0) ∧
      ((m.before.service.announced se).any (releases { m.before with service := rr.1 }) →
        serviceMoves m.out = [⟨m.before.service, se, rr.1, rr.2⟩]) := by
  have ht := fires_taken hm
  obtain ⟨rr, hstep, he⟩ := ht.report hr
  have ho : m.out = _ := congrArg Prod.snd he
  refine ⟨rr, hstep, ?_⟩
  cases ha : m.before.service.announced se with
  | none =>
    rw [settle_serve_of_none (s := m.before.reserve m.event) ha,
      serve_of_step (s := m.before.reserve m.event) hstep] at ho
    rw [ho]
    exact ⟨rfl, fun h => by cases h⟩
  | some msg =>
    have hn := (Service.step_announced hstep).2 (by simp [ha])
    rw [settle_serve_of_some (s := m.before.reserve m.event) ht.raised hstep ha] at ho
    have hc : crashed { m.before.reserve m.event with service := rr.1 } = false := by
      simp [crashed, reserve, ht.raised, hn]
    have hsame : releases { m.before with service := rr.1 } msg =
        releases { m.before.reserve m.event with service := rr.1 } msg := by
      cases msg <;> rfl
    rw [ho, Option.any_some, hsame]
    cases hrel : releases { m.before.reserve m.event with service := rr.1 } msg with
    | true =>
      have hd := deliver_of_releases (t := m.event.stringTime)
        [m.event.fresh, m.event.fresh'] hc hrel
      exact ⟨by simpa [released] using hd.1, fun _ => congrArg (List.cons _) hd.2⟩
    | false =>
      have hd := released_of_not_releases (t := m.event.stringTime)
        [m.event.fresh, m.event.fresh'] hrel
      exact ⟨by simpa [released] using hd, fun h => by cases h⟩

theorem released_settle_serve {fresh : List ScreenId} (s : App) {e : ServiceEvent}
    (h : ∀ m ∈ s.service.announced e, ∀ s' : App, s'.releases m = false) :
    released (settle t fresh (s.serve e)).2 = 0 := by
  have hserve : released (s.serve e).2 = 0 := by
    unfold serve
    split <;> rfl
  cases hr : s.service.step e with
  | none => simp [serve, hr, settle, andThen, runAll, released]
  | some r =>
    cases hs : s.raised with
    | some x =>
      simp [serve_of_step hr, settle, andThen, Sequence.andThen, crashed, hs, released]
    | none =>
      cases hm : s.service.announced e with
      | none => rw [settle_serve_of_none hm, hserve]
      | some m =>
        rw [settle_serve_of_some hs hr hm]
        have hd := released_of_not_releases (t := t) fresh (h m hm { s with service := r.1 })
        simpa [released] using hd

theorem released_of_not_report {m : AppMove} (hm : machine.Fires m)
    (hr : m.event.act.report m.event.stringTime = none) : released m.out = 0 := by
  obtain ⟨-, hs, -, hd⟩ := fires_taken hm
  generalize hout : (m.after, m.out) = r at hd
  rw [show m.out = r.2 from congrArg Prod.snd hout]
  have hc := closed_releasedNothing
  cases hd with
  | launch =>
    refine hc.andThen (s := m.before) (r := App.appear _ _ _) rfl ?_
    refine released_performAll _ _ _ fun c hcm he => ?_
    subst he
    revert hcm
    cases m.before.service.didLogin <;> simp [Kind.viewDidLoad, MenuScreen.viewDidLoad,
      MenuScreen.autoLogin]
  | @touch i touch sc cs ha hi hsc hcs =>
    rcases settle_touched (s := m.before.reserve m.event) hs hcs m.event.stringTime
      [m.event.fresh, m.event.fresh'] i with ⟨keychain, rfl, -, he⟩ | ⟨-, -, he⟩
    · rw [he]
      refine released_settle_serve _ fun msg hmsg s' => ?_
      cases hmsg
      rfl
    · rw [he]
      refine released_performAll _ _ _ fun c hcm he => ?_
      subst he
      cases Screen.runs_of_touched hcs _ hcm
  | pop | release => rfl
  | @timer i sc =>
    refine released_performAll _ _ _ fun c hcm he => ?_
    subst he
    cases hk : sc.kind <;> simp [hk, Kind.deferred] at hcm
  | silent ha =>
    unfold serve
    split <;> rfl
  | report ha => rw [hr] at ha; cases ha
  | childAdded =>
    refine hc.runAll (fun s o _ => released_settle_serve s fun msg hmsg s' => ?_) _
    obtain ⟨d, -, rfl⟩ := Option.map_eq_some_iff.mp hmsg
    rfl

/-! ### The screens made so far -/

theorem mem_used_of_loads {s₀ s : App} {h : AppHistory} (hr : machine.Run s₀ h s)
    {x : ScreenId × Kind} (hx : x ∈ loads (outputs h)) : x.1 ∈ s.used := by
  induction hr with
  | nil => simp [outputs] at hx
  | @cons h m _ hm ih =>
    have hu : m.after.used = m.event.fresh :: m.event.fresh' :: m.before.used := used_step hm
    rw [outputs, List.flatMap_cons, loads_append, List.mem_append] at hx
    rw [hu]
    rcases hx with hx | hx
    · have hf := (loadsFrom_step (s := m.before) hm).subset (List.mem_map_of_mem hx)
      rcases List.mem_cons.mp hf with he | hf
      · exact he ▸ List.mem_cons_self
      · exact List.mem_singleton.mp hf ▸ List.mem_cons_of_mem _ List.mem_cons_self
    · exact List.mem_cons_of_mem _ (List.mem_cons_of_mem _ (ih hx))

/-- What was made earlier has other addresses than what is made now. -/
theorem mem_loads_of_fresh {s₀ : App} {older : AppHistory} {m : AppMove}
    (hr : machine.Run s₀ older m.before) {x : ScreenId × Kind} (hx : x.1 ∉ m.before.used) :
    x ∈ loads (outputs (m :: older)) ↔ x ∈ loads m.out := by
  rw [outputs, List.flatMap_cons, loads_append, List.mem_append, or_iff_left]
  exact fun h => hx (mem_used_of_loads hr h)

theorem mem_loads_of_used {older : AppHistory} {m : AppMove} (hm : machine.Fires m)
    {x : ScreenId × Kind} (hx : x.1 ∈ m.before.used) :
    x ∈ loads (outputs (m :: older)) ↔ x ∈ loads (outputs older) := by
  rw [outputs, List.flatMap_cons, loads_append, List.mem_append, or_iff_right]
  · rfl
  · exact fun h => not_mem_used_of_loads hm h hx

theorem knows_move {s₀ : App} {older : AppHistory} {m : AppMove}
    (hr : machine.Run s₀ older m.before) (hm : machine.Fires m) :
    Knows (outputs (m :: older)) (m.after, m.out) := by
  intro x hx
  have hnew : x.1 ∉ m.before.used := not_mem_used_of_loads hm hx
  rw [mem_loads_of_fresh (x := (x.1, Kind.profile)) hr hnew]
  have hne : m.event.fresh ≠ m.event.fresh' := by
    have hs := (fires_taken hm).supplies
    simp only [supplies, decide_eq_true_eq] at hs
    exact hs.2.2
  have hnodup : ((loads m.out).map Prod.fst).Nodup :=
    (loadsFrom_step (s := m.before) hm).nodup (by simpa using hne)
  constructor
  · intro hp
    have he := List.inj_on_of_nodup_map hnodup hx hp rfl
    rw [he]
  · rintro hk
    rwa [← hk]

/-! ### The balance after one more event -/

theorem underWay_congr {s : Service} {A B : Ticket → Bool}
    (h : ∀ x, s.underWay (· == x) ≠ 0 → A x = B x) : s.underWay A = s.underWay B := by
  have hp : ∀ p ∈ s.pending, p.ticket.any A = p.ticket.any B := by
    intro p hp
    cases ht : p.ticket with
    | none => rfl
    | some x =>
      refine h x (Nat.ne_of_gt (Nat.add_pos_left (List.countP_pos_iff.mpr ⟨p, hp, ?_⟩) _))
      simp [ht]
  have hw : ∀ w ∈ s.replies, w.ticket.any A = w.ticket.any B := by
    intro w hw
    cases ht : w.ticket with
    | none => rfl
    | some x =>
      refine h x (Nat.ne_of_gt (Nat.add_pos_right _ (List.countP_pos_iff.mpr ⟨w, hw, ?_⟩)))
      simp [ht]
  exact congrArg₂ (· + ·) (List.countP_congr fun p hmem => by rw [hp p hmem])
    (List.countP_congr fun w hmem => by rw [hw w hmem])

theorem serviceMoves_run {m : AppMove} (hm : machine.Fires m) :
    Service.machine.Run m.before.service (serviceMoves m.out).reverse m.after.service :=
  (total_service _).does rfl (fires_taken hm).does

theorem lockBalanced_iff {h : AppHistory} {s : App} : LockBalanced h s ↔
    begun (outputs h) = released (outputs h) + s.service.underWay (locking (outputs h)) := by
  refine ⟨fun hb => hb.balance, fun hb => ⟨hb, fun hp hr => ?_⟩⟩
  rw [hb]
  simp [Service.underWay, hp, hr]

theorem lockBalanced_cons {s₀ : App} {older : AppHistory} {m : AppMove} (hl : Launch s₀)
    (hr : machine.Run s₀ older m.before) (hm : machine.Fires m)
    (hb : LockBalanced older m.before) : LockBalanced (m :: older) m.after ↔
      released m.out = Service.ended (serviceMoves m.out) (locking (outputs (m :: older))) := by
  rw [lockBalanced_iff]
  have hbegun : begun m.out =
      Service.issued (serviceMoves m.out) (locking (outputs (m :: older))) :=
    locksOnce_step (s := m.before) hm _ (knows_move hr hm)
  have hlaw := Service.underWay_of_run (serviceMoves_run hm) (locking (outputs (m :: older)))
  have hkeep : m.before.service.underWay (locking (outputs (m :: older))) =
      m.before.service.underWay (locking (outputs older)) := by
    refine underWay_congr fun x hx => ?_
    have hused : x.2 ∈ m.before.used := by
      by_contra hu
      exact hx (counts_of_not_used hl hr hu).1
    simp only [locking, mem_loads_of_used (x := (x.2, Kind.profile)) hm hused]
  have hold := hb.balance
  simp only [Service.ended, Service.issued, List.countP_reverse] at hlaw hbegun ⊢
  rw [show outputs (m :: older) = m.out ++ outputs older from rfl] at *
  simp only [begun, released, List.countP_append] at hbegun hold ⊢
  omega

/-! ### What the balance asks of an event -/

theorem locking_refused {p : Pending} {q : Reply} (h : Service.refuses p.request q = true)
    (o : List Output) : p.ticket.any (locking o) = false := by
  rcases Service.refuses_eq_true h with ⟨known, hq⟩ | ⟨user, starter, dialog, hq⟩ <;>
    simp [Pending.ticket, hq, Request.method, locking]

/-- Of the steps that complete nothing, only a fetch with nobody signed in ends an
operation that the app waits for. -/
theorem ends_locking_iff {sv : Service} {e : ServiceEvent} {r : Done} (h : sv.step e = some r)
    (he : ∀ k t, e ≠ .complete k t) (o : List Output) : (sv.ends e).any (locking o) ↔
      sv.currentUser = none ∧ ∃ i ∈ e.fetcher, (i, Kind.profile) ∈ loads o := by
  cases e with
  | call i t c =>
    cases c <;> cases hu : sv.currentUser <;>
      simp [Service.ends, Service.asks, Service.worksOn, Call.asks, Call.method, hu, locking,
        ServiceEvent.fetcher]
  | complete k t => exact absurd rfl (he k t)
  | dialog k q =>
    obtain ⟨-, p, hp, hd⟩ := Service.step_dialog h
    rcases Service.closeDialog_eq_some hd with ⟨hq, -⟩ | ⟨u, hq, -⟩ <;>
      simp only [Service.ends, Service.worksOn, hp, Option.bind_some, Pending.ticket, hq,
        Request.method, ServiceEvent.fetcher] <;>
      split_ifs <;> simp [locking]
  | answer k q =>
    have hn : ((sv.pending[k]?.filter fun p => Service.refuses p.request q).bind
        Pending.ticket).any (locking o) = false := by
      cases hp : sv.pending[k]?.filter fun p => Service.refuses p.request q with
      | none => rfl
      | some p => exact locking_refused (Option.filter_eq_some_iff.mp hp).2 o
    simp [Service.ends, Service.asks, Service.worksOn, ServiceEvent.fetcher, hn]
  | childAdded | remoteRecord | remoteField =>
    simp [Service.ends, Service.asks, Service.worksOn, ServiceEvent.fetcher]

theorem CallsBack.fetcher {fresh : List ScreenId} {s : App} {j : ScreenId} {c : Call}
    (h : CallsBack fresh s j c) : ∀ i ∈ (ServiceEvent.call j t c).fetcher, i ∈ fresh := by
  cases h with
  | loads hj hc =>
    rcases hc with rfl | rfl <;> simp [ServiceEvent.fetcher, hj]
  | saves => simp [ServiceEvent.fetcher, SignupScreen.saveCall]

theorem mem_fresh_of_fetcher {m : AppMove} (hm : machine.Fires m) {sm : ServiceMove}
    (hsm : sm ∈ serviceMoves m.out) {i : ScreenId} (hi : i ∈ sm.event.fetcher) :
    i ∈ [m.event.fresh, m.event.fresh'] := by
  cases hr : m.event.act.report m.event.stringTime with
  | none =>
    generalize hev : sm.event = ev at hi
    have hask := asked_of_step (s := m.before) hm hr sm hsm
    rw [hev] at hask
    cases hask with
    | @button j touch c _ _ hc =>
      cases c with
      | fetchData => cases touch <;> cases hc
      | _ => cases hi
    | callsBack h => exact h.fetcher i hi
    | silent ha =>
      rcases Act.silent_eq_some ha with ⟨k, q, -, rfl⟩ | ⟨u, d, -, rfl⟩ | ⟨u, k, v, -, rfl⟩ <;>
        cases hi
    | tells => cases hi
  | some se =>
    obtain ⟨rr, rest, -, hmoves, hrest⟩ := report_of_step (s := m.before) hm hr
    rw [show serviceMoves m.out = _ from hmoves] at hsm
    rcases List.mem_cons.mp hsm with rfl | hsm
    · rcases Act.report_eq_some hr with ⟨k, -, rfl⟩ | ⟨k, q, -, rfl⟩ <;> cases hi
    · obtain ⟨j, c, he, hc⟩ := hrest sm hsm
      rw [he] at hi
      exact hc.fetcher i hi

/-- The Profile screens made in `m` find somebody signed in, as far as `l` goes. -/
def FindUser (m : AppMove) (l : List ServiceMove) : Prop :=
  ∀ sm ∈ l, ∀ i ∈ sm.event.fetcher, (i, Kind.profile) ∈ loads m.out →
    sm.before.currentUser ≠ none

theorem ended_eq_zero_iff {s₀ : App} {older : AppHistory} {m : AppMove}
    (hr : machine.Run s₀ older m.before) (hm : machine.Fires m) {l : List ServiceMove}
    (hl : ∀ sm ∈ l, sm ∈ serviceMoves m.out) (hc : ∀ sm ∈ l, ∀ k t, sm.event ≠ .complete k t) :
    Service.ended l (locking (outputs (m :: older))) = 0 ↔ FindUser m l := by
  rw [Service.ended, List.countP_eq_zero]
  refine forall_congr' fun sm => forall_congr' fun hsm => ?_
  have hfires := (serviceMoves_run hm).fires sm (List.mem_reverse.mpr (hl sm hsm))
  rw [ends_locking_iff hfires (hc sm hsm)]
  have hloads : ∀ i ∈ sm.event.fetcher,
      ((i, Kind.profile) ∈ loads (outputs (m :: older)) ↔ (i, Kind.profile) ∈ loads m.out) :=
    fun i hi => mem_loads_of_fresh (x := (i, Kind.profile)) hr
      (not_mem_used_of_fresh (s := m.before) hm (mem_fresh_of_fetcher hm (hl sm hsm) hi))
  constructor
  · intro hn i hi hp hu
    exact hn ⟨hu, i, hi, (hloads i hi).mpr hp⟩
  · rintro hs ⟨hu, i, hi, hp⟩
    exact hs i hi ((hloads i hi).mp hp) hu

/-- Completing a reply ends an operation that the app waits for. -/
def finishes (o : List Output) (s : App) (w : Waiting) : Bool :=
  (w.reply.asks s.service).isNone && w.ticket.any (locking o)

theorem unlocks_iff {s : App} {w : Waiting} {o : List Output} :
    (s.unlocks w.reply ↔ finishes o s w) ↔
      (w.reply.method = some .fetchData → ((w.caller, Kind.profile) ∈ loads o ↔
        s.listeningKind = some .profile ∧ (w.reply.shownDate s.service).isSome)) ∧
      s.uploadSucceeds w.reply := by
  cases hq : w.reply with
  | fetched u n =>
    simp [unlocks, finishes, uploadSucceeds, Reply.asks, Waiting.ticket, Reply.method, locking, hq]
    exact iff_comm
  | fetchCancelled u =>
    simp [unlocks, finishes, uploadSucceeds, Reply.asks, Waiting.ticket, Reply.method, locking, hq]
    exact iff_comm
  | putData u error =>
    cases error <;>
      simp [unlocks, finishes, uploadSucceeds, Reply.asks, Waiting.ticket, Reply.method, locking,
        hq]
  | downloadURL u token =>
    simp [unlocks, finishes, uploadSucceeds, Reply.asks, Waiting.ticket, Reply.method, locking, hq]
  | _ =>
    simp [unlocks, finishes, uploadSucceeds, Waiting.ticket, Reply.method, locking, hq]

theorem completed_eq_some {s : App} {a : Act} {w : Waiting} :
    s.completed a = some w ↔ ∃ k, a = .complete k ∧ s.service.replies[k]? = some w := by
  cases a <;> simp [completed]

theorem not_complete_of_move {m : AppMove} (hm : machine.Fires m)
    (hc : ∀ k, m.event.act ≠ .complete k) :
    ∀ sm ∈ serviceMoves m.out, ∀ k t, sm.event ≠ .complete k t := by
  intro sm hsm k t he
  cases hr : m.event.act.report m.event.stringTime with
  | none =>
    have hask := asked_of_step (s := m.before) hm hr sm hsm
    rw [he] at hask
    cases hask with
    | silent ha =>
      rcases Act.silent_eq_some ha with ⟨_, _, -, h⟩ | ⟨_, _, -, h⟩ | ⟨_, _, _, -, h⟩ <;> cases h
  | some se =>
    obtain ⟨rr, rest, -, hmoves, hrest⟩ := report_of_step (s := m.before) hm hr
    rw [show serviceMoves m.out = _ from hmoves] at hsm
    rcases List.mem_cons.mp hsm with rfl | hsm
    · rcases Act.report_eq_some hr with ⟨k', ha, -⟩ | ⟨k', q, -, rfl⟩
      · exact hc k' ha
      · cases he
    · obtain ⟨j, c, he', -⟩ := hrest sm hsm
      rw [he] at he'
      cases he'

theorem released_of_not_complete {m : AppMove} (hm : machine.Fires m)
    (hc : ∀ k, m.event.act ≠ .complete k) : released m.out = 0 := by
  cases hr : m.event.act.report m.event.stringTime with
  | none => exact released_of_not_report hm hr
  | some se =>
    obtain ⟨rr, -, hrel, -⟩ := released_of_report hm hr
    rcases Act.report_eq_some hr with ⟨k, ha, -⟩ | ⟨k, q, -, rfl⟩
    · exact absurd ha (hc k)
    · rw [hrel, if_neg]
      cases hmsg : m.before.service.announced (.dialog k q) with
      | none => simp
      | some msg => simp [Service.announced_dialog hmsg, releases]

theorem released_of_complete {m : AppMove} (hm : machine.Fires m) {k : Nat}
    (ha : m.event.act = .complete k) :
    ∃ w sm rest, m.before.service.replies[k]? = some w ∧ serviceMoves m.out = sm :: rest ∧
      sm.before = m.before.service ∧ sm.event = .complete k m.event.stringTime ∧
      (∀ sm' ∈ rest, ∀ k t, sm'.event ≠ .complete k t) ∧
      released m.out = (if m.before.unlocks w.reply then 1 else 0) ∧
      (m.before.unlocks w.reply → rest = []) := by
  have hr : m.event.act.report m.event.stringTime = some (.complete k m.event.stringTime) := by
    rw [ha]
    rfl
  obtain ⟨rr, hstep, hrel, hnone⟩ := released_of_report hm hr
  obtain ⟨-, w, hw, -⟩ := Service.step_complete hstep
  obtain ⟨rr', rest, hstep', hmoves, hrest⟩ := report_of_step (s := m.before) hm hr
  obtain rfl := Option.some.inj (hstep.symm.trans hstep')
  rw [any_releases_complete hw hstep] at hrel hnone
  refine ⟨w, _, rest, hw, hmoves, rfl, rfl, ?_, hrel, ?_⟩
  · intro sm' hsm' k t he
    obtain ⟨j, c, he', -⟩ := hrest sm' hsm'
    rw [he] at he'
    cases he'
  · intro hu
    exact (List.cons.inj (hmoves.symm.trans (hnone hu))).2

theorem ends_complete_any {s : Service} {k : Nat} {t : String} {w : Waiting}
    (hw : s.replies[k]? = some w) (A : Ticket → Bool) :
    (s.ends (.complete k t)).any A = ((w.reply.asks s).isNone && w.ticket.any A) := by
  cases ha : w.reply.asks s <;> simp [Service.ends, Service.asks, Service.worksOn, hw, ha]

/-- What is completed asks for is fetched and uploaded as `ReleasesLock` has it. -/
theorem unlocks_iff_finishes {s₀ : App} {older : AppHistory} {m : AppMove} (hl : Launch s₀)
    (hr : machine.Run s₀ older m.before) (hm : machine.Fires m) {k : Nat} {w : Waiting}
    (hw : m.before.service.replies[k]? = some w) :
    (m.before.unlocks w.reply ↔ finishes (outputs (m :: older)) m.before w) ↔
      (w.reply.method = some .fetchData → ((w.caller, Kind.profile) ∈ loads (outputs older) ↔
        m.before.listeningKind = some .profile ∧
          (w.reply.shownDate m.before.service).isSome)) ∧
      m.before.uploadSucceeds w.reply := by
  rw [unlocks_iff]
  refine and_congr_left fun _ => forall_congr' fun hx => ?_
  have hticket : w.ticket = some (.fetchData, w.caller) := by simp [Waiting.ticket, hx]
  have hunder : m.before.service.underWay (· == (.fetchData, w.caller)) ≠ 0 :=
    Nat.ne_of_gt (Nat.add_pos_right _ (List.countP_pos_iff.mpr
      ⟨w, List.mem_of_getElem? hw, by simp [hticket]⟩))
  have hused : w.caller ∈ m.before.used := by
    by_contra hu
    exact hunder (counts_of_not_used hl hr hu).1
  rw [mem_loads_of_used (x := (w.caller, Kind.profile)) hm hused]

theorem released_eq_ended_iff {s₀ : App} {older : AppHistory} {m : AppMove} (hl : Launch s₀)
    (hr : machine.Run s₀ older m.before) (hm : machine.Fires m) :
    released m.out = Service.ended (serviceMoves m.out) (locking (outputs (m :: older))) ↔
      ReleasesLock older m := by
  by_cases hc : ∃ k, m.event.act = .complete k
  · obtain ⟨k, ha⟩ := hc
    obtain ⟨w, sm, rest, hw, hmoves, hbefore, hevent, hrest, hrel, hnil⟩ :=
      released_of_complete hm ha
    have hcomp : ∀ w', w' ∈ m.before.completed m.event.act ↔ w' = w := by
      intro w'
      simp [completed, ha, hw, eq_comm]
    have hlock : ReleasesLock older m ↔ FindUser m rest ∧
        (m.before.unlocks w.reply ↔ finishes (outputs (m :: older)) m.before w) := by
      have hsigned : FindUser m (serviceMoves m.out) ↔ FindUser m rest := by
        rw [hmoves, FindUser, List.forall_mem_cons, hevent]
        exact and_iff_right fun i hi => by cases hi
      rw [unlocks_iff_finishes hl hr hm hw, ← hsigned]
      constructor
      · exact fun h => ⟨h.signedIn, h.fetched w ((hcomp w).mpr rfl),
          h.uploaded w ((hcomp w).mpr rfl)⟩
      · rintro ⟨hs, hf, hu⟩
        exact ⟨hs, fun w' hw' => (hcomp w').mp hw' ▸ hf, fun w' hw' => (hcomp w').mp hw' ▸ hu⟩
    have hended : Service.ended (sm :: rest) (locking (outputs (m :: older))) =
        Service.ended rest (locking (outputs (m :: older))) +
          if finishes (outputs (m :: older)) m.before w then 1 else 0 := by
      simp only [Service.ended, List.countP_cons, hbefore, hevent,
        ends_complete_any hw, finishes]
      rfl
    have hzero := ended_eq_zero_iff hr hm (l := rest)
      (fun sm' h => hmoves ▸ List.mem_cons_of_mem _ h) hrest
    rw [hlock, hmoves, hended, hrel, ← hzero]
    cases hu : m.before.unlocks w.reply with
    | true =>
      rw [hnil hu]
      cases finishes (outputs (m :: older)) m.before w <;> simp [Service.ended]
    | false =>
      cases finishes (outputs (m :: older)) m.before w <;> simp
      exact eq_comm
  · rw [not_exists] at hc
    rw [released_of_not_complete hm hc, eq_comm,
      ended_eq_zero_iff hr hm (fun _ h => h) (not_complete_of_move hm hc)]
    have hnone : ∀ w, m.before.completed m.event.act ≠ some w := fun w hw => by
      obtain ⟨k, ha, -⟩ := completed_eq_some.mp hw
      exact hc k ha
    exact ⟨fun h => ⟨h, fun w hw => absurd hw (hnone w), fun w hw => absurd hw (hnone w)⟩,
      fun h => h.signedIn⟩

theorem lockBalanced_launch {s₀ : App} (hl : Launch s₀) : LockBalanced [] s₀ := by
  rw [lockBalanced_iff, Service.underWay_launch hl.service]
  rfl

/-- In every run from a launch, at all times the app ignores touches exactly as often as it
waits for a Profile screen's fetch or an upload if and only if each event releases what it
should and no more. -/
theorem lock_balanced_iff {s₀ s : App} {h : AppHistory} (hl : Launch s₀)
    (hr : machine.Run s₀ h s) : AlwaysBalanced h ↔
      ∀ newer m older, h = newer ++ m :: older → ReleasesLock older m := by
  rw [← Machine.each_iff]
  exact hr.always_iff (lockBalanced_launch hl) fun older m hr hm hb =>
    (lockBalanced_cons hl hr hm hb).trans (released_eq_ended_iff hl hr hm)

def changedPicture : List Event :=
  script 0 [.launch, .answer 0 (.fetched "u" (.dict (Service.signupRecord "u"))), .complete 0,
    .touch 1 .singleTapping, .touch 6 (.didFinishPicking "image"),
    .answer 0 (.putData (some "u") false), .complete 0,
    .answer 0 (.downloadURL (some "u") (some "token")), .complete 0]

theorem changed_picture_balanced :
    let r := (machine.exec [] (start (Service.launch (some "u") ["u"])) changedPicture).get
      (by decide)
    machine.Run (start (Service.launch (some "u") ["u"])) r.1 r.2 ∧ AlwaysBalanced r.1 := by
  intro r
  have hr : machine.Run (start (Service.launch (some "u") ["u"])) r.1 r.2 := Machine.exec_run _
  refine ⟨hr, (lock_balanced_iff (start_launch (some "u") ["u"]) hr).mpr ?_⟩
  exact Machine.each_iff.mp (by decide)

def failedUpload : List Event :=
  script 0 [.launch, .answer 0 (.fetched "u" (.dict (Service.signupRecord "u"))), .complete 0,
    .touch 1 .singleTapping, .touch 6 (.didFinishPicking "image"),
    .answer 0 (.putData (some "u") true), .complete 0]

theorem failed_upload_locks : ¬ ∀ s₀ h s, Launch s₀ → machine.Run s₀ h s → AlwaysBalanced h := by
  intro hall
  let s₀ := start (Service.launch (some "u") ["u"])
  let r := (machine.exec [] s₀ failedUpload).get (by decide)
  have hl : Launch s₀ := start_launch (some "u") ["u"]
  have hr : machine.Run s₀ r.1 r.2 := Machine.exec_run _
  have hb := hr.of_always (lockBalanced_launch hl) (hall _ _ _ hl hr)
  exact absurd (hb.idle (by decide) (by decide)) (by decide)

end App

end Mioto
