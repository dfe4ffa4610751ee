import Mioto.Addresses
import Mioto.ChildAdded
import Mioto.Residue

/-! Two apps side by side that differ in what the services kept from before and in the
screens that were there before. Their screens run the same commands and answer messages
in the same way, as far as they agree on what is read from the cache. -/

namespace Mioto

def Command.reads : Command → Key → Bool
  | .push .viewProfile, k => k == .mUserImgUrl
  | .call c, k => c.reads k
  | _, _ => false

def Screen.reads : Screen → Message → Key → Bool
  | .profile _, .profileDataRecieved _, k => k != .mUserID
  | .edit _, .profileDataRecieved status, k => status != 0 && k != .mUserID
  | _, _, _ => false

/-- The commands that no screen of a session runs. -/
def Command.leaves : Command → Bool
  | .pop | .presentForgotPassword => true
  | _ => false

/-- The effect changes the database, or the accounts that can sign in. -/
def Effect.writes : Effect → Bool
  | .send _ | .raise _ => false
  | _ => true

def writes (o : List Output) : List Effect := (effects o).filter Effect.writes

theorem writes_append (o o' : List Output) : writes (o ++ o') = writes o ++ writes o' := by
  simp [writes, effects, serviceMoves, List.filterMap_append, List.flatMap_append]

theorem writes_service (m : ServiceMove) (o : List Output) :
    writes (.service m :: o) = m.out.filter Effect.writes ++ writes o := by
  simp [writes, effects, serviceMoves]

namespace App

/-- The two apps differ at most in what the services kept from before, and in the
screens at `old` addresses. -/
structure Alike (old : ScreenId → Bool) (K : Key → Prop) (a b : App) : Prop where
  service : a.service.Alike K b.service
  fireBaseListener : a.fireBaseListener = b.fireBaseListener
  authListener : a.authListener = b.authListener
  listeners : ∀ i, a.fireBaseListener = some i ∨ a.authListener = some i → old i = false
  screens : ∀ i, old i = false → a.screens i = b.screens i
  stack : a.stack.filter (!old ·) = b.stack.filter (!old ·)
  presented : ∀ i, old i = false → (a.presented = some i ↔ b.presented = some i)
  timers : a.timers.filter (!old ·) = b.timers.filter (!old ·)
  raised : a.raised = b.raised

abbrev Same (old : ScreenId → Bool) (K : Key → Prop) (r r' : Outcome) : Prop :=
  Sequence.Agree (Alike old K) (fun o o' => writes o = writes o') r r'

section

variable {old : ScreenId → Bool} {K : Key → Prop} {a b : App}

theorem Alike.crashed (h : Alike old K a b) : a.crashed = b.crashed := by
  simp only [App.crashed, h.raised, h.service.raised]

theorem Alike.symm (h : Alike old K a b) : Alike old K b a where
  service := h.service.symm
  fireBaseListener := h.fireBaseListener.symm
  authListener := h.authListener.symm
  listeners i hi := h.listeners i (by rwa [h.fireBaseListener, h.authListener])
  screens i hi := (h.screens i hi).symm
  stack := h.stack.symm
  presented i hi := (h.presented i hi).symm
  timers := h.timers.symm
  raised := h.raised.symm

theorem Alike.trans (h : Alike old K a b) {c : App} (h' : Alike old K b c) : Alike old K a c where
  service := h.service.trans h'.service
  fireBaseListener := h.fireBaseListener.trans h'.fireBaseListener
  authListener := h.authListener.trans h'.authListener
  listeners := h.listeners
  screens i hi := (h.screens i hi).trans (h'.screens i hi)
  stack := h.stack.trans h'.stack
  presented i hi := (h.presented i hi).trans (h'.presented i hi)
  timers := h.timers.trans h'.timers
  raised := h.raised.trans h'.raised

theorem Alike.agreeing (h : Alike old K a b) {K' : Key → Prop}
    (hk : ∀ f, K' f → a.service.cached f = b.service.cached f) : Alike old K' a b :=
  { h with service := { h.service with cached := hk } }

theorem Same.weaken {r r' : Outcome} (h : Same old K r r') : Same old (fun _ => False) r r' :=
  ⟨h.1.agreeing fun _ => False.elim, h.2⟩

theorem related_alike (old : ScreenId → Bool) (K : Key → Prop) :
    Sequence.Related App.crashed (Alike old K)
      (fun o o' : List Output => writes o = writes o') where
  stop h := h.crashed
  nil := rfl
  append ho hp := by rw [writes_append, writes_append, ho, hp]

theorem mem_iff_of_filter {l l' : List ScreenId} (h : l.filter (!old ·) = l'.filter (!old ·))
    {i : ScreenId} (hi : old i = false) : i ∈ l ↔ i ∈ l' := by
  have hm := congrArg (i ∈ ·) h
  simpa [hi] using hm

theorem Alike.become (h : Alike old K a b) (i : ScreenId) (sc : Option Screen) :
    Alike old K { a with screens := Function.update a.screens i sc }
      { b with screens := Function.update b.screens i sc } := by
  refine { h with screens := fun j hj => ?_ }
  by_cases he : j = i
  · subst he
    simp
  · simpa only [Function.update_of_ne he] using h.screens j hj

theorem Alike.serve (h : Alike old K a b) {e : ServiceEvent} {r r' : Done}
    (hr : a.service.step e = some r) (hr' : b.service.step e = some r') {K' : Key → Prop}
    (hs : Service.Same K' r r') : Same old K' (a.serve e) (b.serve e) := by
  rw [serve_of_step hr, serve_of_step hr']
  refine ⟨{ h with service := hs.1 }, ?_⟩
  change writes [.service _] = writes [.service _]
  rw [writes_service, writes_service, hs.2]

theorem Alike.call (h : Alike old K a b) (i : ScreenId) (t : String) {c : Call}
    (hc : ∀ k, c.reads k → K k) : Same old K (a.serve (.call i t c)) (b.serve (.call i t c)) := by
  have hr := h.service.raised
  cases hn : a.service.raised with
  | some x =>
    have ha : a.service.step (.call i t c) = none := by simp [Service.step, hn]
    have hb : b.service.step (.call i t c) = none := by simp [Service.step, ← hr, hn]
    simp only [App.serve, ha, hb]
    exact ⟨h, rfl⟩
  | none =>
    have ha : a.service.step (.call i t c) = some (a.service.call i t c) := by
      simp [Service.step, hn]
    have hb : b.service.step (.call i t c) = some (b.service.call i t c) := by
      simp [Service.step, ← hr, hn]
    exact h.serve ha hb (h.service.call i t hc)

/-! ### Commands -/

theorem viewDidLoad_reads (k : Kind) (didLogin : Bool) :
    ∀ c ∈ k.viewDidLoad didLogin, c.leaves = false ∧ ∀ f, c.reads f = false := by
  cases k <;> cases didLogin <;> decide

theorem Alike.loaded (h : Alike old K a b) {k : Kind} (hk : ∀ f, (Command.push k).reads f → K f) :
    k.loaded a.service.newUser = k.loaded b.service.newUser := by
  cases k with
  | viewProfile =>
    have hu : a.service.newUser.bind Profile.mUserImgUrl =
        b.service.newUser.bind Profile.mUserImgUrl := h.service.cached .mUserImgUrl (hk _ rfl)
    simp only [Kind.loaded, ViewProfileScreen.loaded, hu]
  | menu | signin | signup | forgotPassword | profile | edit | friends => rfl

theorem Alike.push (h : Alike old K a b) {j : ScreenId} (hj : old j = false) {k : Kind}
    (hk : ∀ f, (Command.push k).reads f → K f) :
    Same old K ({ a with stack := j :: a.stack }.appear k j)
      ({ b with stack := j :: b.stack }.appear k j) := by
  have hp : Alike old K { a with stack := j :: a.stack } { b with stack := j :: b.stack } :=
    { h with stack := by simp only [List.filter_cons, hj, Bool.not_false, if_true, h.stack] }
  simp only [appear, hp.loaded hk]
  exact ⟨hp.become j _, rfl⟩

theorem Alike.perform_of_not_makes (h : Alike old K a b) (t : String) (fresh : List ScreenId)
    {i : ScreenId} (hi : old i = false) {c : Command} (hl : c.leaves = false)
    (hk : ∀ f, c.reads f → K f) (hm : makes c = false) :
    Same old K (perform t fresh i a c) (perform t fresh i b c) := by
  cases c with
  | become sc => cases fresh <;> exact ⟨h.become i (some sc), rfl⟩
  | listenFireBase =>
    have hlis : ∀ j, some i = some j ∨ a.authListener = some j → old j = false := by
      rintro j (hj | hj)
      · exact Option.some.inj hj ▸ hi
      · exact h.listeners j (.inr hj)
    cases fresh <;> exact ⟨{ h with fireBaseListener := rfl, listeners := hlis }, rfl⟩
  | listenAuth =>
    have hlis : ∀ j, a.fireBaseListener = some j ∨ some i = some j → old j = false := by
      rintro j (hj | hj)
      · exact h.listeners j (.inl hj)
      · exact Option.some.inj hj ▸ hi
    cases fresh <;> exact ⟨{ h with authListener := rfl, listeners := hlis }, rfl⟩
  | call c =>
    rw [perform_call, perform_call]
    exact h.call i t hk
  | push | presentForgotPassword => simp [makes] at hm
  | pop => simp [Command.leaves] at hl
  | dismiss =>
    have hp := h.presented i hi
    rw [perform_dismiss, perform_dismiss]
    by_cases ha : a.presented = some i
    · rw [if_pos ha, if_pos (hp.mp ha)]
      exact ⟨{ h with presented := fun _ _ => Iff.rfl }, rfl⟩
    · rw [if_neg ha, if_neg (mt hp.mpr ha)]
      exact ⟨h, rfl⟩
  | dispatchAfter =>
    have ht : (a.timers ++ [i]).filter (!old ·) = (b.timers ++ [i]).filter (!old ·) := by
      rw [List.filter_append, List.filter_append, h.timers]
    cases fresh <;> exact ⟨{ h with timers := ht }, rfl⟩
  | beginIgnoring | endIgnoring | alert | log => cases fresh <;> exact ⟨h, rfl⟩
  | raise x => cases fresh <;> exact ⟨{ h with raised := rfl }, rfl⟩

theorem Alike.perform (h : Alike old K a b) (t : String) {fresh : List ScreenId}
    (hf : ∀ j ∈ fresh, old j = false) {i : ScreenId} (hi : old i = false) {c : Command}
    (hl : c.leaves = false) (hk : ∀ f, c.reads f → K f) :
    Same old K (App.perform t fresh i a c) (App.perform t fresh i b c) := by
  induction fresh generalizing a b i c with
  | nil =>
    cases hm : makes c with
    | false => exact h.perform_of_not_makes t [] hi hl hk hm
    | true =>
      cases c <;> simp [makes] at hm
      all_goals exact ⟨h, rfl⟩
  | cons j fresh ih =>
    have hj : old j = false := hf j List.mem_cons_self
    cases hm : makes c with
    | false => exact h.perform_of_not_makes t _ hi hl hk hm
    | true =>
      cases c <;> simp [makes] at hm
      case push k =>
        have hst := mem_iff_of_filter h.stack hi
        have hd : a.service.didLogin = b.service.didLogin := by
          simp only [Service.didLogin, h.service.currentUser]
        rw [perform_push, perform_push, hd]
        by_cases hs : i ∈ b.stack
        · rw [if_pos (hst.mpr hs), if_pos hs]
          refine (related_alike old K).andThen (h.push hj hk) fun _ h' => ?_
          refine (related_alike old K).runAll (fun c hc s s' hss => ?_) h'
          obtain ⟨hl, hn⟩ := viewDidLoad_reads k _ c hc
          exact ih hss (fun j hj => hf j (List.mem_cons_of_mem _ hj)) hj hl fun f hr => by
            simp [hn f] at hr
        · rw [if_neg (mt hst.mp hs), if_neg hs]
          exact ⟨h, rfl⟩
      case presentForgotPassword => simp [Command.leaves] at hl

theorem Alike.performAll (h : Alike old K a b) (t : String) {fresh : List ScreenId}
    (hf : ∀ j ∈ fresh, old j = false) {i : ScreenId} (hi : old i = false) {cs : List Command}
    (hcs : ∀ c ∈ cs, c.leaves = false ∧ ∀ f, c.reads f → K f) :
    Same old K (runAll (App.perform t fresh i) a cs) (runAll (App.perform t fresh i) b cs) := by
  refine (related_alike old K).runAll (fun c hc s s' hs => ?_) h
  exact hs.perform t hf hi (hcs c hc).1 (hcs c hc).2

/-! ### Deliveries -/

theorem receive_eq_reads (sc : Screen) (u : Option Profile) (m : Message) :
    sc.receive u m = sc.receive (some (transformUser fun f =>
      if sc.reads m f then u.bind (·.property f) else none)) m := by
  cases sc with
  | profile sc =>
    cases m with
    | profileDataRecieved status => cases u <;> rfl
    | _ => rfl
  | edit sc =>
    cases m with
    | profileDataRecieved status =>
      by_cases hs : status = 0
      · simp only [Screen.receive, EditProfileScreen.profileDataRecieved, hs, if_true]
      · cases u <;> simp [Screen.receive, EditProfileScreen.profileDataRecieved, Screen.reads, hs,
          transformUser, Profile.property]
    | _ => rfl
  | menu | signin | signup | forgotPassword | viewProfile | friends => cases m <;> rfl

theorem receive_congr {sc : Screen} {u u' : Option Profile} {m : Message}
    (h : ∀ f, sc.reads m f → u.bind (·.property f) = u'.bind (·.property f)) :
    sc.receive u m = sc.receive u' m := by
  rw [receive_eq_reads sc u, receive_eq_reads sc u']
  congr 3
  funext f
  split
  · next hf => exact h f hf
  · rfl

theorem receive_commands {sc : Screen} {user : Option Profile} {m : Message} {cs : List Command}
    (h : sc.receive user m = some cs) :
    ∀ c ∈ cs, c.leaves = false ∧ ∀ f, c.reads f = false := by
  intro c hc
  cases Screen.answers_of_receive h c hc <;> exact ⟨rfl, fun _ => rfl⟩

theorem Alike.listening (h : Alike old K a b) (m : Message) : a.listening m = b.listening m := by
  have hl : a.listener m = b.listener m := by
    cases m <;> first | exact h.fireBaseListener | exact h.authListener
  unfold App.listening
  rw [← hl]
  cases hi : a.listener m with
  | none => rfl
  | some i =>
    have hn : old i = false := by
      refine h.listeners i ?_
      cases m <;> first | exact .inl hi | exact .inr hi
    simp only [Option.bind_some, h.screens i hn]

theorem Alike.new_of_listening (h : Alike old K a b) {m : Message} {x : ScreenId × Screen}
    (hl : a.listening m = some x) : old x.1 = false := by
  refine h.listeners x.1 ?_
  have hi := (listening_eq_some.mp hl).1
  cases m <;> first | exact .inl hi | exact .inr hi

theorem Alike.deliver (h : Alike old K a b) (t : String) {fresh : List ScreenId}
    (hf : ∀ j ∈ fresh, old j = false) {m : Message}
    (hm : ∀ x, a.listening m = some x → ∀ f, x.2.reads m f → K f) :
    Same old K (App.deliver t fresh a m) (App.deliver t fresh b m) := by
  unfold App.deliver
  rw [← h.listening m]
  cases hl : a.listening m with
  | none => exact ⟨h, rfl⟩
  | some x =>
    obtain ⟨i, sc⟩ := x
    have hi := h.new_of_listening hl
    have hr : sc.receive a.service.newUser m = sc.receive b.service.newUser m :=
      receive_congr fun f hrf => h.service.cached f (hm _ hl f hrf)
    simp only [← hr]
    cases hc : sc.receive a.service.newUser m with
    | none => exact ⟨{ h with raised := rfl }, rfl⟩
    | some cs =>
      have hp := h.performAll t hf hi fun c hcm =>
        ⟨(receive_commands hc c hcm).1,
          fun f hrf => by simp [(receive_commands hc c hcm).2 f] at hrf⟩
      exact ⟨hp.1, hp.2⟩

theorem announced_congr {s s' : Service} {e : ServiceEvent} {r r' : Done}
    (hr : s.step e = some r) (hr' : s'.step e = some r') (ho : r.2 = r'.2) :
    s.announced e = s'.announced e := by
  have hh := (Service.step_announced hr).1.symm.trans
    ((congrArg (List.filterMap Effect.message) ho).trans (Service.step_announced hr').1)
  generalize s.announced e = m, s'.announced e = m' at hh
  cases m with
  | none => exact (Option.toList_eq_nil_iff.mp hh.symm).symm
  | some m => exact (Option.toList_eq_singleton_iff.mp hh.symm).symm

theorem Alike.settle_serve (h : Alike old K a b) (hn : a.raised = none) (t : String)
    {fresh : List ScreenId} (hf : ∀ j ∈ fresh, old j = false) {e : ServiceEvent} {r r' : Done}
    (hr : a.service.step e = some r) (hr' : b.service.step e = some r') {K' : Key → Prop}
    (hs : Service.Same K' r r')
    (hm : ∀ m x, a.service.announced e = some m → a.listening m = some x →
      ∀ f, x.2.reads m f → K' f) :
    Same old K' (settle t fresh (a.serve e)) (settle t fresh (b.serve e)) := by
  have hann := announced_congr hr hr' hs.2
  cases hm' : a.service.announced e with
  | none =>
    rw [settle_serve_of_none hm', settle_serve_of_none (hann.symm.trans hm')]
    exact h.serve hr hr' hs
  | some m =>
    rw [settle_serve_of_some hn hr hm',
      settle_serve_of_some (h.raised.symm.trans hn) hr' (hann.symm.trans hm')]
    have hp : Alike old K' { a with service := r.1 } { b with service := r'.1 } :=
      { h with service := hs.1 }
    have hd := hp.deliver t hf (m := m) fun x hx => hm m x hm' hx
    refine ⟨hd.1, ?_⟩
    change writes (.service _ :: _) = writes (.service _ :: _)
    rw [writes_service, writes_service, hs.2]
    exact congrArg _ hd.2

end

end App

end Mioto
