import Mioto.Navigation
import Mioto.Operations
import Mioto.Simulation
import Mathlib.Data.Fintype.EquivFin

/-! Left alone, the app comes to rest: every chain of requests is finite, and what is under
way can always take its next step. A weight counts the steps that are still to come. -/

namespace Mioto

/-- What a screen may still have to do when it hears of `m`: the Profile it pushes fetches,
and a `dispatch_after` block may push one. -/
def Message.weight : Message → ℕ
  | .authStatus _ | .loginFbWithStatus _ | .uploadProfileImageStatus _ => 3
  | _ => 0

def Reply.weight : Reply → ℕ
  | .fetched _ _ | .fetchCancelled _ | .linkedFacebook _ _ _ _ | .linkedEmail _ _ => 1
  | .downloadURL _ _ | .signedInFacebook _ _ | .createdUser _ _ _ | .signedIn _ | .resetSent _ => 4
  | .putData _ _ | .providers _ _ => 6
  | .graphMe _ => 8

def Request.weight : Request → ℕ
  | .fetch _ | .linkFacebook _ _ _ _ | .linkEmail _ _ => 2
  | .downloadURL _ | .signInFacebook _ _ | .createUser _ _ _ | .signIn _ _ | .resetPassword _ => 5
  | .putData _ _ | .fetchProviders _ _ => 7
  | .graphMe => 9
  | .loginDialog => 10
  | .linkDialog _ => 4

namespace Service

def weight (s : Service) : ℕ :=
  (s.pending.map (·.request.weight)).sum + (s.replies.map (·.reply.weight)).sum

theorem sum_eraseIdx {α : Type} {l : List α} {k : ℕ} {a : α} (h : l[k]? = some a) (f : α → ℕ) :
    ((l.eraseIdx k).map f).sum + f a = (l.map f).sum := by
  obtain ⟨hk, rfl⟩ := List.getElem?_eq_some_iff.mp h
  have hp := ((List.getElem_cons_eraseIdx_perm hk).map f).sum_eq
  simp only [List.map_cons, List.sum_cons] at hp
  omega

theorem weight_hands {s s' : Service} {q : Option Pending} (h : Hands s s' q) :
    s'.weight = s.weight + (q.elim 0 (·.request.weight)) := by
  cases q with
  | none => simp [weight, h.1, h.2]
  | some p =>
    simp only [weight, h.1, h.2, Option.toList_some, List.map_append, List.map_cons, List.map_nil,
      List.sum_append, List.sum_cons, List.sum_nil, Option.elim_some]
    omega

end Service

theorem Request.weight_answers {s : Service} {q : Request} {r : Reply} (h : s.answers q r) :
    r.weight + 1 = q.weight := by
  cases q <;> cases r <;> first | rfl | simp [Service.answers] at h

/-- A completion block pays for what it asks for and for what it announces. -/
theorem Reply.weight_asks (s : Service) (r : Reply) :
    (r.asks s).elim 0 Request.weight + (r.announced s).elim 0 Message.weight + 1 ≤
      r.weight := by
  cases r with
  | fetched u n => cases n <;> simp [asks, announced, weight, Message.weight]
  | putData u error =>
    cases error <;> simp [asks, announced, weight, Message.weight, Request.weight]
  | downloadURL u token =>
    cases token <;> simp only [asks, announced] <;> (try split) <;>
      simp [weight, Message.weight]
  | graphMe result =>
    rcases result with _ | _ | email <;> simp [asks, announced, weight, Request.weight]
  | signedInFacebook known result =>
    rcases known with _ | _ <;> rcases result with _ | user <;> simp only [asks, announced] <;>
      (try split) <;> simp [weight, Message.weight]
  | linkedFacebook u starter dialog error | linkedEmail u error =>
    cases error <;> simp only [asks, announced] <;> (try split) <;> simp [weight, Message.weight]
  | fetchCancelled | providers | createdUser | signedIn | resetSent =>
    simp [asks, announced, weight, Message.weight, Request.weight]

namespace Service

/-- The steps that are left to the SDKs and to the main queue. -/
def settles : ServiceEvent → Bool
  | .answer _ _ | .complete _ _ | .dialog _ _ => true
  | _ => false

def hears (s : Service) (e : ServiceEvent) : ℕ := (s.announced e).elim 0 Message.weight

/-- The same for the handler of a dialog. -/
theorem Closed.weight {s : Service} {i : ScreenId} {p : Request} {q : DialogResult} {r : Done}
    (h : Closed s i p q r) :
    (if q = .error then 3 else 0) + (p.asks s q).elim 0 Request.weight + 1 ≤ p.weight := by
  cases h <;> simp [Request.asks, Request.weight, *]

theorem weight_settles {s : Service} {e : ServiceEvent} {r : Done} (h : s.step e = some r)
    (he : settles e) : r.1.weight + s.hears e + 1 ≤ s.weight := by
  have hq : ∀ (q : Option Request) (i : ScreenId),
      (q.map (Pending.mk · i)).elim 0 (·.request.weight) = q.elim 0 Request.weight := by
    intro q i
    cases q <;> rfl
  cases (stepped h).2 with
  | answered hp ha | refused hp ha =>
    have hw := Request.weight_answers ha
    have hs := sum_eraseIdx hp fun p : Pending => p.request.weight
    simp only [weight, answer, raise, hears, announced, List.map_append, List.sum_append,
      List.map_cons, List.map_nil, List.sum_cons, List.sum_nil, Option.elim_none] at hs ⊢
    omega
  | @completed k t w r hk hd =>
    have hs := sum_eraseIdx hk fun w : Waiting => w.reply.weight
    have hu := weight_hands hd.hands
    have hw := w.reply.weight_asks { s with replies := s.replies.eraseIdx k }
    have hm : w.reply.announced { s with replies := s.replies.eraseIdx k } =
        w.reply.announced s := by
      unfold Reply.announced
      split <;> rfl
    rw [hm] at hw
    rw [hq] at hu
    simp only [hears, announced, hk, Option.bind_some, hu]
    simp only [weight] at hs ⊢
    omega
  | @closed k q p r hk hd =>
    have hs := sum_eraseIdx hk fun p : Pending => p.request.weight
    have hu := weight_hands hd.hands
    have hm := hd.weight
    have hl : s.hears (.dialog k q) ≤ if q = .error then 3 else 0 := by
      unfold hears
      cases hm : s.announced (.dialog k q) with
      | none => simp
      | some m =>
        rw [announced_dialog hm]
        cases q <;> first | exact Nat.le_refl _ | cases hm
    rw [hq] at hu
    rw [hu]
    simp only [weight] at hs ⊢
    omega
  | called | told | remoteRecord | remoteField => cases he

end Service

def Call.weight : Call → ℕ
  | .fetchData | .emailLinking _ => 2
  | .logout _ => 3
  | .fbLinking => 4
  | .signupWithEmail _ _ _ | .signinWithEmail _ _ | .resetPasswordWithEmail _ => 5
  | .uploadProfileImage _ => 7
  | .loginWithFacebook => 10
  | _ => 0

def Command.weight : Command → ℕ
  | .call c => c.weight
  | .push .profile | .push .menu | .push .edit => 2
  | .dispatchAfter => 3
  | _ => 0

def commandsWeight (cs : List Command) : ℕ := (cs.map Command.weight).sum

/-- What a view does when it is loaded is paid for by the push. -/
theorem Kind.weight_viewDidLoad (k : Kind) (didLogin : Bool) :
    commandsWeight (k.viewDidLoad didLogin) ≤ (Command.push k).weight := by
  cases k <;> cases didLogin <;> decide

theorem Kind.weight_deferred (k : Kind) : commandsWeight k.deferred ≤ 2 := by
  cases k <;> decide

theorem Screen.weight_receive {sc : Screen} {user : Option Profile} {m : Message}
    {cs : List Command} (h : sc.receive user m = some cs) : commandsWeight cs ≤ m.weight := by
  cases received h <;>
    simp [commandsWeight, Command.weight, Message.weight, Call.weight, SignupScreen.saveCall]

theorem Screen.weight_touched {sc : Screen} {touch : Touch} {cs : List Command}
    (h : sc.touched touch = some cs) : commandsWeight cs ≤ 10 := by
  cases touched_cases h <;> simp [commandsWeight, Command.weight, Call.weight]

namespace Service

theorem weight_call (s : Service) (i : ScreenId) (t : String) (c : Call) :
    (s.call i t c).1.weight ≤ s.weight + c.weight := by
  rw [weight_hands (s.called i t c).hands]
  cases c <;> cases hu : s.currentUser <;>
    simp [Call.asks, hu, Call.weight, Request.weight]

end Service

namespace App

variable {t : String}

def weight (s : App) : ℕ := s.service.weight + 3 * s.timers.length

theorem weight_serve_call (s : App) (i : ScreenId) (c : Call) :
    (s.serve (.call i t c)).1.weight ≤ s.weight + c.weight := by
  cases hr : s.service.step (.call i t c) with
  | none => simp [serve, hr]
  | some r =>
    obtain ⟨-, rfl⟩ := Service.step_call hr
    have hw := s.service.weight_call i t c
    rw [serve_of_step hr]
    simp only [weight]
    omega

theorem weight_runAll {left : List ScreenId} {i : ScreenId}
    (hf : ∀ s c, (perform t left i s c).1.weight ≤ s.weight + c.weight) (s : App)
    (cs : List Command) :
    (runAll (perform t left i) s cs).1.weight ≤ s.weight + commandsWeight cs := by
  induction cs generalizing s with
  | nil => exact Nat.le_add_right _ _
  | cons c cs ih =>
    have hc := hf s c
    have hcs := ih (perform t left i s c).1
    simp only [commandsWeight, List.map_cons, List.sum_cons] at hcs ⊢
    rcases fst_runAll_cons (perform t left i) s c cs with he | he <;> rw [he] <;> omega

theorem weight_of_not_makes (left : List ScreenId) (i : ScreenId) (s : App) {c : Command}
    (hm : makes c = false) : (perform t left i s c).1.weight ≤ s.weight + c.weight := by
  cases c with
  | push | presentForgotPassword => simp [makes] at hm
  | call c =>
    rw [perform_call]
    exact weight_serve_call s i c
  | dispatchAfter => simp [weight, Command.weight, Nat.mul_add, Nat.add_assoc]
  | pop =>
    rcases perform_pop t left i s with he | ⟨j, k, stack, -, he⟩ <;> rw [he] <;>
      exact Nat.le_add_right _ _
  | dismiss =>
    rw [perform_dismiss]
    split_ifs <;> exact Nat.le_add_right _ _
  | _ => cases left <;> exact Nat.le_add_right _ _

theorem weight_perform (left : List ScreenId) (i : ScreenId) (s : App) (c : Command) :
    (perform t left i s c).1.weight ≤ s.weight + c.weight := by
  have hload : ∀ j left, (∀ s c, (perform t left j s c).1.weight ≤ s.weight + c.weight) →
      ∀ (s' : App) (k : Kind) (didLogin : Bool),
        (andThen (s'.appear k j) fun s'' =>
          runAll (perform t left j) s'' (k.viewDidLoad didLogin)).1.weight ≤
        s'.weight + (Command.push k).weight := by
    intro j left ih s' k didLogin
    have hk := k.weight_viewDidLoad didLogin
    have hr := weight_runAll ih (s'.appear k j).1 (k.viewDidLoad didLogin)
    have ha : (s'.appear k j).1.weight = s'.weight := rfl
    unfold andThen Sequence.andThen
    split
    · exact Nat.le_add_right _ _
    · exact le_trans hr (by omega)
  exact perform_induct (motive := fun _ _ s c r => r.1.weight ≤ s.weight + c.weight)
    (fun _ _ _ _ _ => Nat.le_add_right _ _)
    (fun left i s _ hm => weight_of_not_makes left i s hm)
    (fun j left _ s k _ ih => hload j left ih { s with stack := j :: s.stack } k _)
    (fun j left _ s ih => hload j left ih { s with presented := some j } .forgotPassword _)
    left i s c

theorem weight_performAll (left : List ScreenId) (i : ScreenId) (s : App) (cs : List Command) :
    (runAll (perform t left i) s cs).1.weight ≤ s.weight + commandsWeight cs :=
  weight_runAll (fun s c => weight_perform left i s c) s cs

theorem weight_deliver (left : List ScreenId) (s : App) (m : Message) :
    (deliver t left s m).1.weight ≤ s.weight + m.weight := by
  unfold deliver
  cases s.listening m with
  | none => exact Nat.le_add_right _ _
  | some x =>
    obtain ⟨i, sc⟩ := x
    cases hc : sc.receive s.service.newUser m with
    | none =>
      simp only [hc]
      exact Nat.le_add_right _ _
    | some cs =>
      simp only [hc]
      exact le_trans (weight_performAll left i s cs)
        (Nat.add_le_add_left (Screen.weight_receive hc) _)

theorem weight_settle_serve (left : List ScreenId) {s : App} {e : ServiceEvent} {r : Done}
    (hs : s.raised = none) (hr : s.service.step e = some r) :
    (settle t left (s.serve e)).1.weight ≤
      r.1.weight + s.service.hears e + 3 * s.timers.length := by
  unfold Service.hears
  cases hm : s.service.announced e with
  | none =>
    rw [settle_serve_of_none hm, serve_of_step hr]
    exact Nat.le_refl _
  | some m =>
    rw [settle_serve_of_some hs hr hm]
    have hw := weight_deliver (t := t) left { s with service := r.1 } m
    simp only [Option.elim_some]
    exact le_trans hw (by simp only [weight]; omega)

theorem weight_tell (left : List ScreenId) (s : App) (v : Uid) (o : Nat) :
    (tell t left v s o).1.weight ≤ s.weight := by
  cases hr : s.service.step (.childAdded o v) with
  | none => simp [tell, serve, hr, settle, andThen, runAll]
  | some r =>
    have hw : r.1.weight = s.service.weight := by
      cases (Service.stepped hr).2 with
      | told _ _ _ hc => exact Service.weight_hands hc.hands
    have hm : s.service.hears (.childAdded o v) = 0 := by
      unfold Service.hears
      cases hm : s.service.announced (.childAdded o v) with
      | none => rfl
      | some m =>
        obtain ⟨d, -, rfl⟩ := Option.map_eq_some_iff.mp hm
        rfl
    cases hs : s.raised with
    | none =>
      refine le_trans (weight_settle_serve left hs hr) ?_
      simp only [weight]
      omega
    | some x =>
      rw [tell, serve_of_step hr, settle, andThen, Sequence.andThen_of_stop crashed]
      · simp only [weight]
        omega
      · simp [crashed, hs]

end App

/-- The steps that are left to the SDKs, the main queue and the clock by what the app has
asked of them. A child-added callback is not among them: a new child in the database causes
it, and an observer that is never removed may get any number of them. -/
def Act.settles : Act → Bool
  | .answer _ _ | .complete _ | .dialog _ _ | .timer _ => true
  | _ => false

def Act.isUser : Act → Bool
  | .launch | .touch _ _ => true
  | _ => false

namespace App

theorem timer_spec {s : App} {e : Event} {r : Outcome} {i : ScreenId} (h : s.step e = some r)
    (ha : e.act = .timer i) : i ∈ s.timers := by
  unfold step at h
  split_ifs at h
  simp only [ha, act] at h
  split_ifs at h with hi
  exact hi

def cost (a : Act) : ℕ := if a.settles then 1 else 0

def gain (a : Act) : ℕ := if a.isUser then 10 else 0

theorem weight_load {s : App} (k : Kind) (didLogin : Bool) (left : List ScreenId) (j : ScreenId) :
    (andThen (s.appear k j) fun s' =>
      runAll (perform t left j) s' (k.viewDidLoad didLogin)).1.weight ≤
        s.weight + (Command.push k).weight := by
  unfold andThen Sequence.andThen
  split
  · exact Nat.le_add_right _ _
  · exact le_trans (weight_performAll left j (s.appear k j).1 _)
      (Nat.add_le_add_left (k.weight_viewDidLoad didLogin) _)

theorem weight_touch {s : App} {sc : Screen} {touch : Touch} {cs : List Command}
    (hn : s.raised = none) (hs : s.service.raised = none) (hcs : sc.touched touch = some cs)
    (left : List ScreenId) (i : ScreenId) :
    (settle t left (runAll (perform t left i) s cs)).1.weight ≤ s.weight + 10 := by
  rcases settle_touched hs hcs t left i with ⟨keychain, rfl, hcall, he⟩ | ⟨-, -, he⟩ <;> rw [he]
  · refine le_trans (weight_settle_serve left hn hcall) ?_
    have hw := s.service.weight_call i t (.logout keychain)
    simp only [Service.call, Call.weight] at hw
    simp only [Service.hears, Service.announced, Option.elim_some, Message.weight, weight]
    omega
  · exact le_trans (weight_performAll left i s cs)
      (Nat.add_le_add_left (Screen.weight_touched hcs) _)

theorem weight_timer {s : App} {i : ScreenId} (hi : i ∈ s.timers) (left : List ScreenId)
    (k : Kind) :
    (runAll (perform t left i) { s with timers := s.timers.erase i } k.deferred).1.weight + 1 ≤
      s.weight := by
  have hlen := List.length_erase_of_mem hi
  have hpos := List.length_pos_of_mem hi
  have hw := weight_performAll (t := t) left i { s with timers := s.timers.erase i } k.deferred
  have hdef := k.weight_deferred
  simp only [weight] at hw ⊢
  omega

theorem weight_silent {s : App} {e : Act} {se : ServiceEvent} {rr : Done}
    (hs : s.service.raised = none) (ha : e.silent = some se) (hr : s.service.step se = some rr) :
    (s.serve se).1.weight + cost e ≤ s.weight + gain e := by
  rw [serve_of_step hr]
  rcases Act.silent_eq_some ha with ⟨k, q, rfl, rfl⟩ | ⟨u, d, rfl, rfl⟩ | ⟨u, k, v, rfl, rfl⟩
  · have hw := Service.weight_settles hr rfl
    simp only [weight, cost, gain, Act.settles, Act.isUser, Bool.false_eq_true, if_false, if_true]
    omega
  all_goals
    simp only [Service.step, hs] at hr
    obtain rfl := Option.some.inj hr
    exact Nat.le_refl _

theorem weight_report {s : App} {e : Act} {se : ServiceEvent} {rr : Done} (hn : s.raised = none)
    (ha : e.report t = some se) (hr : s.service.step se = some rr) (left : List ScreenId) :
    (settle t left (s.serve se)).1.weight + cost e ≤ s.weight + gain e := by
  have hw := weight_settle_serve (t := t) left hn hr
  have hsettles : Service.settles se ∧ cost e = 1 := by
    rcases Act.report_eq_some ha with ⟨k, rfl, rfl⟩ | ⟨k, q, rfl, rfl⟩ <;> exact ⟨rfl, rfl⟩
  have hpay := Service.weight_settles hr hsettles.1
  rw [hsettles.2]
  simp only [weight] at hw ⊢
  omega

theorem weight_childAdded (s : App) (left : List ScreenId) (v : Uid) :
    (s.childAdded t left v).1.weight ≤ s.weight := by
  have hc : Sequence.Closed fun (s : App) (r : Outcome) => r.1.weight ≤ s.weight :=
    { refl := fun _ => Nat.le_refl _, trans := fun h h' => le_trans h' h }
  exact hc.runAll (fun s o _ => weight_tell left s v o) s

/-- A step that is left to the system makes the app lighter; only the user makes it heavier. -/
theorem weight_step {s : App} {e : Event} {r : Outcome} (h : s.step e = some r) :
    r.1.weight + cost e.act ≤ s.weight + gain e.act := by
  obtain ⟨hn, hs, -, hd⟩ := step_taken h
  cases hd with
  | launch ha =>
    rw [ha]
    exact le_trans (weight_load (s := { s.reserve e with stack := [e.fresh] }) .menu _ _ _)
      (Nat.add_le_add_left (by decide : 2 ≤ 10) _)
  | touch ha hi hsc hcs =>
    rw [ha]
    exact weight_touch (s := s.reserve e) hn hs hcs _ _
  | pop ha | release ha =>
    rw [ha]
    exact Nat.le_refl _
  | timer ha =>
    rw [ha]
    exact weight_timer (s := s.reserve e) (show _ ∈ s.timers from timer_spec h ha) _ _
  | silent ha hr => exact weight_silent (s := s.reserve e) hs ha hr
  | report ha hr => exact weight_report (s := s.reserve e) hn ha hr _
  | childAdded ha =>
    rw [ha]
    exact weight_childAdded (s.reserve e) _ _

theorem weight_run {s₀ s : App} {h : AppHistory} (hr : machine.Run s₀ h s) :
    s.weight + h.countP (·.event.act.settles) ≤
      s₀.weight + 10 * h.countP (·.event.act.isUser) :=
  hr.weigh (·.act.settles) (·.act.isUser) fun _ _ _ hf => weight_step hf

/-! ### What is under way can go on -/

/-- Nothing waits for an answer, for the main queue or for the clock. -/
def AtRest (s : App) : Prop := s.service.pending = [] ∧ s.service.replies = [] ∧ s.timers = []

end App

/-- A request that opened no dialog can be answered. -/
theorem Request.exists_answer (s : Service) (q : Request) :
    (∃ r, s.answers q r) ∨ q = .loginDialog ∨ ∃ u, q = .linkDialog u := by
  cases q with
  | fetch u => exact .inl ⟨.fetchCancelled u, by simp [Service.answers]⟩
  | putData u image => exact .inl ⟨.putData u true, by simp [Service.answers]⟩
  | downloadURL u => exact .inl ⟨.downloadURL u none, by simp [Service.answers]⟩
  | loginDialog => exact .inr (.inl rfl)
  | graphMe => exact .inl ⟨.graphMe none, rfl⟩
  | fetchProviders email credential =>
    exact .inl ⟨.providers credential none, by simp [Service.answers]⟩
  | signInFacebook credential known =>
    exact .inl ⟨.signedInFacebook known none, by simp [Service.answers]⟩
  | linkDialog starter => exact .inr (.inr ⟨starter, rfl⟩)
  | linkFacebook u credential starter dialog =>
    exact .inl ⟨.linkedFacebook u starter dialog true, by simp [Service.answers]⟩
  | linkEmail u email => exact .inl ⟨.linkedEmail u true, by simp [Service.answers]⟩
  | createUser email password username =>
    exact .inl ⟨.createdUser email username none, by simp [Service.answers]⟩
  | signIn email password => exact .inl ⟨.signedIn none, rfl⟩
  | resetPassword email => exact .inl ⟨.resetSent true, rfl⟩

namespace App

theorem exists_fresh (used : List ScreenId) : ∃ i j : ScreenId, i ∉ used ∧ j ∉ used ∧ i ≠ j := by
  obtain ⟨i, hi⟩ := Infinite.exists_notMem_finset used.toFinset
  obtain ⟨j, hj⟩ := Infinite.exists_notMem_finset (i :: used).toFinset
  simp only [List.mem_toFinset, List.mem_cons, not_or] at hi hj
  exact ⟨i, j, hi, hj.2, Ne.symm hj.1⟩

theorem exists_step {s : App} (hc : s.crashed = false) {a : Act}
    (h : ∀ e, ((s.reserve e).act e.stringTime [e.fresh, e.fresh'] a).isSome) :
    ∃ e r, e.act = a ∧ s.step e = some r := by
  obtain ⟨i, j, hi, hj, hij⟩ := exists_fresh s.used
  have hsup : s.supplies ⟨a, i, j, ""⟩ := by simp [supplies, hi, hj, hij]
  have hstep : (s.step ⟨a, i, j, ""⟩).isSome := by simpa [step, hc, hsup] using h ⟨a, i, j, ""⟩
  exact ⟨⟨a, i, j, ""⟩, (s.step ⟨a, i, j, ""⟩).get hstep, rfl, (Option.some_get hstep).symm⟩

/-- Nothing that is under way is stuck: where the app has not come to rest, an SDK, the main
queue or the clock has a step to take. -/
theorem exists_settling {s : App} (hn : s.Navigated) (hc : s.crashed = false) (hr : ¬ s.AtRest) :
    ∃ e r, e.act.settles ∧ s.step e = some r := by
  have hs : s.service.raised = none := by
    simp only [crashed, Bool.or_eq_false_iff] at hc
    simpa using hc.2
  have hsettles : ∃ a, a.settles ∧
      ∀ e, ((s.reserve e).act e.stringTime [e.fresh, e.fresh'] a).isSome := by
    cases ht : s.timers with
    | cons i timers =>
      have hi : i ∈ s.timers := ht ▸ List.mem_cons_self
      have hsome : (s.screens i).isSome := by
        rw [← isSome_kindAt]
        rcases hn.timers i hi with hk | hk <;> rw [hk] <;> rfl
      exact ⟨.timer i, rfl, fun e => by simp [act, reserve, hi, hsome]⟩
    | nil =>
      cases hq : s.service.replies with
      | cons w replies =>
        exact ⟨.complete 0, rfl, fun e => by simp [act, reserve, Service.step, hs, hq]⟩
      | nil =>
        cases hp : s.service.pending with
        | nil => exact absurd ⟨hp, hq, ht⟩ hr
        | cons p pending =>
          rcases p.request.exists_answer s.service with ⟨q, ha⟩ | hd | ⟨u, hd⟩
          · exact ⟨.answer 0 q, rfl, fun e => by simp [act, reserve, Service.step, hs, hp, ha]⟩
          all_goals
            exact ⟨.dialog 0 .error, rfl, fun e => by
              simp [act, reserve, Service.step, hs, hp, Service.closeDialog, hd]⟩
  obtain ⟨a, ha, hact⟩ := hsettles
  obtain ⟨e, r, rfl, he⟩ := exists_step hc hact
  exact ⟨e, r, ha, he⟩

theorem weight_launch {s : App} (hl : Launch s) : s.weight = 0 := by
  simp [weight, Service.weight, hl.service.pending, hl.service.replies, hl.timers]

end App

end Mioto
