import Mioto.AppFrame
import Mioto.ScreenFrame

/-! Addresses of screens. Whatever exists, is in the hierarchy or has a timer has an
address that was used before, so the addresses an event supplies are free. -/

namespace Mioto

namespace App

/-- All screens that the state knows of have addresses in `U`. -/
structure Addressed (U : ScreenId → Prop) (s : App) : Prop where
  screens : ∀ i, (s.screens i).isSome → U i
  stack : ∀ i ∈ s.stack, U i
  presented : ∀ i, s.presented = some i → U i
  timers : ∀ i ∈ s.timers, U i

variable {U : ScreenId → Prop} {t : String} {fresh : List ScreenId}

theorem Addressed.become {s : App} (h : Addressed U s) {i : ScreenId} (hi : U i)
    (sc : Option Screen) : Addressed U { s with screens := Function.update s.screens i sc } := by
  refine { h with screens := fun j hj => ?_ }
  by_cases he : j = i
  · exact he ▸ hi
  · exact h.screens j (by simpa only [Function.update_of_ne he] using hj)

theorem Addressed.serve {s : App} (h : Addressed U s) (e : ServiceEvent) :
    Addressed U (s.serve e).1 := by
  unfold App.serve
  split <;> exact { h with }

theorem closed_addressed : Sequence.Closed fun (s : App) (r : Outcome) =>
    Addressed U s → Addressed U r.1 where
  refl _ h := h
  trans h h' hs := h' (h hs)

theorem primitive_addressed (t : String) (U : ScreenId → Prop) :
    Primitive (fun s r => Addressed U s → Addressed U r.1) t U (fun _ => True) where
  closed := closed_addressed
  viewDidLoad _ _ _ _ := trivial
  change := by
    intro s r hc h
    cases hc with
    | become hi => exact h.become hi _
    | call => exact h.serve _
    | @push k j hj =>
      have hp : Addressed U { s with stack := j :: s.stack } :=
        { h with stack := List.forall_mem_cons.mpr ⟨hj, h.stack⟩ }
      exact hp.become hj _
    | @present j hj =>
      have hp : Addressed U { s with presented := some j } :=
        { h with presented := fun i hi => Option.some.inj hi ▸ hj }
      exact hp.become hj _
    | pop hs => exact { h with stack := fun k hk => h.stack k (hs ▸ List.mem_cons_of_mem _ hk) }
    | dismiss => exact { h with presented := fun _ hi => by cases hi }
    | dispatchAfter hi =>
      exact { h with timers := List.forall_mem_append.mpr ⟨h.timers, by simpa using hi⟩ }
    | _ => exact { h with }

theorem Addressed.performAll {s : App} (h : Addressed U s) (hf : ∀ j ∈ fresh, U j)
    {i : ScreenId} (hi : U i) (cs : List Command) :
    Addressed U (runAll (perform t fresh i) s cs).1 :=
  (primitive_addressed t U).performAll hf hi s (fun _ _ => trivial) h

theorem Addressed.deliver {s : App} (h : Addressed U s) (hf : ∀ j ∈ fresh, U j) (m : Message) :
    Addressed U (App.deliver t fresh s m).1 := by
  unfold App.deliver
  split
  · exact h
  · next i sc hl =>
    obtain ⟨j, -, hj⟩ := Option.bind_eq_some_iff.mp hl
    obtain ⟨sc', hsc, he⟩ := Option.map_eq_some_iff.mp hj
    obtain ⟨rfl, -⟩ := Prod.mk.inj he
    split
    · exact { h with }
    · exact h.performAll hf (h.screens j (by simp [hsc])) _

theorem Addressed.settle {r : Outcome} (h : Addressed U r.1) (hf : ∀ j ∈ fresh, U j) :
    Addressed U (App.settle t fresh r).1 :=
  closed_addressed.andThen (s := r.1)
    (f := fun s => runAll (App.deliver t fresh) s (r.2.flatMap Output.messages)) (fun _ => h)
    (closed_addressed.runAll (fun _ m _ h => h.deliver hf m) _) h

theorem addressed_does {s : App} {e : Event} {r : Outcome} (hd : Does s e r)
    (hs : Addressed U s) (hf : ∀ j ∈ [e.fresh, e.fresh'], U j) : Addressed U r.1 := by
  have hs' : Addressed U (s.reserve e) := { hs with }
  have hf₁ : U e.fresh := hf _ (by simp)
  cases hd with
  | launch ha hst =>
    have hp : Addressed U { s.reserve e with stack := [e.fresh] } :=
      { hs' with stack := by simpa using hf₁ }
    exact closed_addressed.andThen (s := { s.reserve e with stack := [e.fresh] })
      (fun h => h.become hf₁ _)
      (fun h => h.performAll (fun j hj => hf j (List.mem_cons_of_mem _ hj)) hf₁ _) hp
  | touch ha hi hsc => exact (hs'.performAll hf (hs.screens _ (by simp [hsc])) _).settle hf
  | pop ha hst =>
    exact { hs' with stack := fun k hk => hs.stack k (hst ▸ List.mem_cons_of_mem _ hk) }
  | @release i ha hi =>
    refine { hs' with screens := fun j hj => hs.screens j ?_ }
    by_cases he : j = i
    · simp [he] at hj
    · exact (congrArg Option.isSome (Function.update_of_ne he _ _)).symm.trans hj
  | @timer i sc ha hsc =>
    have hp : Addressed U { s.reserve e with timers := s.timers.erase i } :=
      { hs' with timers := fun k hk => hs.timers k (List.mem_of_mem_erase hk) }
    exact hp.performAll hf (hs.screens _ (by simp [hsc])) _
  | silent => exact hs'.serve _
  | report => exact (hs'.serve _).settle hf
  | childAdded => exact closed_addressed.runAll (fun _ _ _ h => (h.serve _).settle hf) _ hs'

/-! ### The used addresses -/

theorem serve_used (s : App) (e : ServiceEvent) : (s.serve e).1.used = s.used := by
  unfold serve
  split <;> rfl

theorem total_used (t : String) : Total (fun s r => r.1.used = s.used) t where
  closed := { refl := fun _ => rfl, trans := fun h h' => h'.trans h }
  viewDidLoad _ _ _ _ := trivial
  change hc := by
    cases hc with
    | call => exact serve_used _ _
    | _ => rfl
  turn ht := by
    cases ht with
    | serve => exact serve_used _ _
    | _ => rfl

theorem used_step {s : App} {e : Event} {r : Outcome} (h : s.step e = some r) :
    r.1.used = e.fresh :: e.fresh' :: s.used :=
  (total_used e.stringTime).does rfl (step_taken h).does

theorem not_mem_used_of_fresh {s : App} {e : Event} {r : Outcome} (h : s.step e = some r)
    {j : ScreenId} (hj : j ∈ [e.fresh, e.fresh']) : j ∉ s.used := by
  have hs := (step_taken h).supplies
  simp only [supplies, decide_eq_true_eq] at hs
  rcases List.mem_cons.mp hj with rfl | hj
  · exact hs.1
  · obtain rfl := List.mem_singleton.mp hj
    exact hs.2.1

theorem addressed_of_run {s₀ s : App} {h : AppHistory} (hl : Launch s₀)
    (hr : machine.Run s₀ h s) : Addressed (· ∈ s.used) s := by
  induction hr with
  | nil =>
    exact ⟨fun i hi => by simp [hl.screens] at hi, by simp [hl.stack], by simp [hl.presented],
      by simp [hl.timers]⟩
  | @cons h m _ hm ih =>
    have hu : m.after.used = m.event.fresh :: m.event.fresh' :: m.before.used := used_step hm
    have hsub : ∀ i ∈ m.before.used, i ∈ m.after.used := by
      intro i hi
      rw [hu]
      exact List.mem_cons_of_mem _ (List.mem_cons_of_mem _ hi)
    refine addressed_does (fires_taken hm).does ?_ (by simp [hu])
    exact ⟨fun i hi => hsub i (ih.screens i hi), fun i hi => hsub i (ih.stack i hi),
      fun i hi => hsub i (ih.presented i hi), fun i hi => hsub i (ih.timers i hi)⟩

/-! ### The navigation stack -/

/-- Whatever is on the stack was there before or is in `fresh`. -/
def StackFrom (fresh : List ScreenId) (s : App) (r : Outcome) : Prop :=
  ∀ k ∈ r.1.stack, k ∈ s.stack ∨ k ∈ fresh

theorem closed_stackFrom (fresh : List ScreenId) : Sequence.Closed (StackFrom fresh) where
  refl _ _ hk := .inl hk
  trans hr hr' k hk := (hr' k hk).elim (fun h => hr k h) .inr

theorem serve_stack (s : App) (e : ServiceEvent) : (s.serve e).1.stack = s.stack := by
  unfold serve
  split <;> rfl

theorem stackFrom_performAll {i : ScreenId} (s : App) (cs : List Command) :
    StackFrom fresh s (runAll (perform t fresh i) s cs) := by
  have hd : Deeds (StackFrom fresh) t fresh fun _ _ => True :=
    { closed := closed_stackFrom fresh
      loads := fun _ _ _ _ _ _ => trivial
      deed := by
        intro s r hd k hk
        cases hd with
        | call => exact .inl (serve_stack s _ ▸ hk)
        | push _ hj => exact (List.mem_cons.mp hk).elim (fun he => .inr (he ▸ hj)) .inl
        | pop _ hs => exact .inl (hs ▸ List.mem_cons_of_mem _ hk)
        | _ => exact .inl hk }
  exact hd.performAll s fun _ _ => trivial

theorem stackFrom_deliver (s : App) (m : Message) : StackFrom fresh s (deliver t fresh s m) := by
  unfold deliver
  split
  · exact (closed_stackFrom fresh).refl s
  · split
    · exact fun _ hk => .inl hk
    · exact stackFrom_performAll s _

theorem stackFrom_settle {s : App} {r : Outcome} (h : StackFrom fresh s r) :
    StackFrom fresh s (settle t fresh r) :=
  (closed_stackFrom fresh).andThen
    (f := fun s => runAll (deliver t fresh) s (r.2.flatMap Output.messages)) h
    ((closed_stackFrom fresh).runAll (fun s m _ => stackFrom_deliver s m) _)

theorem stackFrom_serve (s : App) (e : ServiceEvent) : StackFrom fresh s (s.serve e) :=
  fun _ hk => .inl (serve_stack s e ▸ hk)

theorem stackFrom_step {s : App} {e : Event} {r : Outcome} (h : s.step e = some r) :
    StackFrom [e.fresh, e.fresh'] s r := by
  obtain ⟨-, -, -, hd⟩ := step_taken h
  have hc := closed_stackFrom [e.fresh, e.fresh']
  cases hd with
  | launch ha hs =>
    have hl : StackFrom [e.fresh, e.fresh'] s
        ({ s.reserve e with stack := [e.fresh] }.appear .menu e.fresh) :=
      fun k hk => .inr (List.mem_cons.mpr (.inl (List.mem_singleton.mp hk)))
    refine hc.andThen hl fun k hk => ?_
    have hh := stackFrom_performAll _ _ k hk
    exact hh.imp_right (List.mem_cons_of_mem _)
  | touch => exact stackFrom_settle (s := s.reserve e) (stackFrom_performAll _ _)
  | pop ha hs => exact fun k hk => .inl (hs ▸ List.mem_cons_of_mem _ hk)
  | release => exact fun k hk => .inl hk
  | @timer i sc =>
    exact fun k hk => stackFrom_performAll { s.reserve e with timers := s.timers.erase i } _ k hk
  | silent => exact stackFrom_serve (s.reserve e) _
  | report => exact stackFrom_settle (s := s.reserve e) (stackFrom_serve _ _)
  | childAdded =>
    exact hc.runAll (fun s _ _ => stackFrom_settle (stackFrom_serve s _)) (s.reserve e)

/-- Nothing leaves the stack when a screen hears of something. -/
def StackKept (s : App) (r : Outcome) : Prop := ∀ k ∈ s.stack, k ∈ r.1.stack

theorem stackKept_deliver (s : App) (m : Message) : StackKept s (deliver t fresh s m) := by
  have hd : Deeds StackKept t fresh fun _ c => c ≠ .pop :=
    { closed := { refl := fun _ _ hk => hk, trans := fun hr hr' k hk => hr' k (hr k hk) }
      loads := by
        rintro j - k didLogin c hc rfl
        cases k <;> cases didLogin <;> revert hc <;> simp [Kind.viewDidLoad,
          MenuScreen.viewDidLoad, MenuScreen.autoLogin, SigninScreen.viewDidLoad,
          SignupScreen.viewDidLoad, ForgotPasswordScreen.viewDidLoad, ProfileScreen.viewDidLoad,
          EditProfileScreen.viewDidLoad, ViewProfileScreen.viewDidLoad, FriendsScreen.viewDidLoad]
      deed := by
        intro s r hd k hk
        cases hd with
        | call => exact serve_stack s _ ▸ hk
        | push => exact List.mem_cons_of_mem _ hk
        | pop h => exact absurd rfl h
        | _ => exact hk }
  unfold deliver
  split
  · exact fun _ hk => hk
  · split
    · exact fun _ hk => hk
    · next hc =>
      refine hd.performAll s fun c hm he => ?_
      subst he
      cases Screen.answers_of_receive hc _ hm

theorem stackKept_report {s : App} {e : Event} {r : Outcome} (h : s.step e = some r)
    {se : ServiceEvent} (ha : e.act.report e.stringTime = some se) : StackKept s r := by
  obtain ⟨rr, -, rfl⟩ := (step_taken h).report ha
  have hs : StackKept (s.reserve e) ((s.reserve e).serve se) :=
    fun k hk => (serve_stack (s.reserve e) se).symm ▸ hk
  have hc : Sequence.Closed StackKept :=
    { refl := fun _ _ hk => hk, trans := fun hr hr' k hk => hr' k (hr k hk) }
  exact hc.andThen (s := s.reserve e) (f := fun s => runAll (App.deliver _ _) s _) hs
    (hc.runAll (fun s m _ => stackKept_deliver s m) _)

end App

end Mioto
