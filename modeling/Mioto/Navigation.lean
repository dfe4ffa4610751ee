import Mioto.Loads

/-! The navigation stack. A screen is put on it by another that is on it already, and
only some classes push some others, so the stack always tells how its top came about. -/

namespace Mioto

/-- The classes that the methods of a class push. -/
def Kind.pushes : Kind → Kind → Bool
  | .menu, .profile | .menu, .signin | .menu, .signup => true
  | .signin, .profile | .signup, .profile => true
  | .profile, .menu | .profile, .friends | .profile, .viewProfile | .profile, .edit => true
  | .edit, .profile | .viewProfile, .profile => true
  | _, _ => false

/-- A command that some method of the class may run. -/
def Kind.runs (k : Kind) : Command → Bool
  | .become sc => sc.kind = k
  | .push k' => k.pushes k'
  | .pop => k = .signin ∨ k = .signup
  | .presentForgotPassword => k = .signin
  | .dismiss => k = .forgotPassword
  | .dispatchAfter => k = .forgotPassword ∨ k = .viewProfile
  | _ => true

theorem Kind.runs_viewDidLoad (k : Kind) (didLogin : Bool) :
    ∀ c ∈ k.viewDidLoad didLogin, k.runs c := by
  cases k <;> cases didLogin <;> decide

theorem Kind.runs_deferred (k : Kind) : ∀ c ∈ k.deferred, k.runs c := by
  cases k <;> decide

theorem Screen.runs_receive {sc : Screen} {user : Option Profile} {m : Message}
    {cs : List Command} (h : sc.receive user m = some cs) : ∀ c ∈ cs, sc.kind.runs c := by
  cases received h <;> simp [Kind.runs, Kind.pushes, Screen.kind]

theorem Screen.runs_touched {sc : Screen} {touch : Touch} {cs : List Command}
    (h : sc.touched touch = some cs) : ∀ c ∈ cs, sc.kind.runs c := by
  cases touched_cases h with
  | typed ht => simpa [Kind.runs] using (kind_typed ht).1
  | _ => simp [Kind.runs, Kind.pushes, Screen.kind]

/-- A stack, top first, grown from a Menu by pushes. -/
inductive Grown : List Kind → Prop
  | root : Grown [.menu]
  | push {k : Kind} {below : List Kind} (h : Grown below) (hp : ∃ k' ∈ below, k'.pushes k) :
      Grown (k :: below)

theorem Grown.pop {k k' : Kind} {below : List Kind} (h : Grown (k :: k' :: below)) :
    Grown (k' :: below) := by
  cases h with
  | push h => exact h

/-- Every class on the stack but the root has a class below it that pushes it. -/
theorem Grown.pushed {ks above below : List Kind} {k : Kind} (h : Grown ks)
    (he : ks = above ++ k :: below) : (k = .menu ∧ below = []) ∨ ∃ k' ∈ below, k'.pushes k := by
  induction h generalizing above with
  | root =>
    cases above with
    | nil =>
      obtain ⟨rfl, rfl⟩ := List.cons.inj he
      exact .inl ⟨rfl, rfl⟩
    | cons _ above => simp at he
  | push hg hp ih =>
    cases above with
    | nil =>
      obtain ⟨rfl, rfl⟩ := List.cons.inj he
      exact .inr hp
    | cons _ above => exact ih (List.cons.inj he).2

namespace App

def kindAt (s : App) (i : ScreenId) : Option Kind := (s.screens i).map Screen.kind

/-- `stack` holds the stack; a screen that is presented or waits for a `dispatch_after` block
exists and is of a class that does so. -/
structure Navigated (s : App) : Prop where
  nodup : s.stack.Nodup
  stack : s.stack = [] ∨ ∃ ks, Grown ks ∧ s.stack.map s.kindAt = ks.map some
  presented : ∀ i, s.presented = some i → s.kindAt i = some .forgotPassword
  timers : ∀ i ∈ s.timers, s.kindAt i = some .forgotPassword ∨ s.kindAt i = some .viewProfile

theorem Navigated.alive {s : App} (h : s.Navigated) {i : ScreenId} (hi : i ∈ s.stack) :
    (s.screens i).isSome := by
  obtain he | ⟨ks, -, hk⟩ := h.stack
  · simp [he] at hi
  · have hm : s.kindAt i ∈ ks.map some := hk ▸ List.mem_map_of_mem hi
    obtain ⟨k, -, hk⟩ := List.mem_map.mp hm
    have hsome : (s.kindAt i).isSome := by rw [← hk]; rfl
    simpa [kindAt] using hsome

/-- Screens that exist in `s` exist in `s'` and are of the same class. -/
def KindsKept (s s' : App) : Prop := ∀ i k, s.kindAt i = some k → s'.kindAt i = some k

theorem KindsKept.trans {s s' s'' : App} (h : KindsKept s s') (h' : KindsKept s' s'') :
    KindsKept s s'' := fun i k hi => h' i k (h i k hi)

theorem kindAt_congr {s s' : App} (h : s'.screens = s.screens) : s'.kindAt = s.kindAt := by
  funext i
  rw [kindAt, kindAt, h]

theorem kindAt_update (s : App) (i j : ScreenId) (sc : Option Screen) :
    kindAt { s with screens := Function.update s.screens i sc } j =
      if j = i then sc.map Screen.kind else s.kindAt j := by
  unfold kindAt
  by_cases h : j = i
  · subst h
    simp
  · simp [h]

theorem kindsKept_congr {s s' : App} (h : s'.screens = s.screens) : KindsKept s s' := by
  intro i k hi
  rwa [kindAt_congr h]

/-- A screen that changes keeps its class. -/
theorem kindsKept_become {s : App} {i : ScreenId} {sc : Screen} (h : s.kindAt i = some sc.kind) :
    KindsKept s { s with screens := Function.update s.screens i (some sc) } := by
  intro j k hj
  rw [kindAt_update]
  split
  · next he => rw [← hj, he, h]; rfl
  · exact hj

theorem kindsKept_appear {s : App} {j : ScreenId} (h : s.screens j = none) (k : Kind) :
    KindsKept s (s.appear k j).1 := by
  intro i k' hi
  rw [appear, kindAt_update, if_neg]
  · exact hi
  · rintro rfl
    simp [kindAt, h] at hi

/-- The lists of a state and the classes of its screens are all that matters. -/
theorem Navigated.of_kept {s s' : App} (h : s.Navigated) (hk : KindsKept s s')
    (hst : s'.stack = s.stack) (hp : ∀ i, s'.presented = some i → s.presented = some i)
    (ht : ∀ i ∈ s'.timers, i ∈ s.timers) : s'.Navigated where
  nodup := hst ▸ h.nodup
  stack := by
    rw [hst]
    refine h.stack.imp_right ?_
    rintro ⟨ks, hg, hm⟩
    refine ⟨ks, hg, hm ▸ List.map_congr_left fun i hi => ?_⟩
    obtain ⟨k, hki⟩ := Option.isSome_iff_exists.mp (Option.isSome_map.trans (h.alive hi))
    rw [show s.kindAt i = some k from hki, hk i k hki]
  presented i hi := hk i _ (h.presented i (hp i hi))
  timers i hi := (h.timers i (ht i hi)).imp (hk i _) (hk i _)

theorem Navigated.kept_kinds {s s' : App} (h : s.Navigated) (hk : KindsKept s s') :
    s.stack.map s'.kindAt = s.stack.map s.kindAt := by
  refine List.map_congr_left fun i hi => ?_
  obtain ⟨k, hki⟩ := Option.isSome_iff_exists.mp (Option.isSome_map.trans (h.alive hi))
  rw [show s.kindAt i = some k from hki, hk i k hki]

/-! ### One command -/

structure Kept (s s' : App) : Prop where
  kinds : KindsKept s s'
  navigated : s.Navigated → s'.Navigated

theorem Kept.refl (s : App) : Kept s s := ⟨fun _ _ h => h, id⟩

theorem Kept.trans {s s' s'' : App} (h : Kept s s') (h' : Kept s' s'') : Kept s s'' :=
  ⟨h.kinds.trans h'.kinds, fun hn => h'.navigated (h.navigated hn)⟩

theorem Kept.of_same {s s' : App} (hsc : s'.screens = s.screens) (hst : s'.stack = s.stack)
    (hp : s'.presented = s.presented) (ht : s'.timers = s.timers) : Kept s s' :=
  ⟨kindsKept_congr hsc, fun h => h.of_kept (kindsKept_congr hsc) hst (fun _ hi => hp ▸ hi)
    fun _ hi => ht ▸ hi⟩

theorem closed_kept : Sequence.Closed fun (s : App) (r : Outcome) => Kept s r.1 where
  refl := Kept.refl
  trans := Kept.trans

/-- No screen comes into being. -/
def Unmade (s s' : App) : Prop := ∀ j, s.screens j = none → s'.screens j = none

variable {t : String}

theorem kept_serve (s : App) (e : ServiceEvent) :
    Kept s (s.serve e).1 ∧ Unmade s (s.serve e).1 := by
  unfold serve
  split <;> exact ⟨.of_same rfl rfl rfl rfl, fun _ h => h⟩

theorem kept_become {s : App} {i : ScreenId} {sc : Screen} (hi : s.kindAt i = some sc.kind) :
    Kept s { s with screens := Function.update s.screens i (some sc) } ∧
      Unmade s { s with screens := Function.update s.screens i (some sc) } := by
  refine ⟨⟨kindsKept_become hi, fun h => h.of_kept (kindsKept_become hi) rfl (fun _ h => h)
    fun _ h => h⟩, fun j hj => ?_⟩
  have hne : j ≠ i := by
    rintro rfl
    simp [kindAt, hj] at hi
  exact (Function.update_of_ne hne _ _).trans hj

theorem navigated_pop {s : App} (h : s.Navigated) {i j : ScreenId} {stack : List ScreenId}
    (hs : s.stack = i :: j :: stack) : Navigated { s with stack := j :: stack } where
  nodup := (hs ▸ h.nodup).of_cons
  stack := by
    rcases h.stack with he | ⟨ks, hg, hm⟩
    · simp [hs] at he
    · rw [hs] at hm
      cases ks with
      | nil => simp at hm
      | cons k ks =>
        cases ks with
        | nil => simp at hm
        | cons k' ks => exact .inr ⟨k' :: ks, hg.pop, (List.cons.inj hm).2⟩
  presented := h.presented
  timers := h.timers

theorem navigated_timer {s : App} (h : s.Navigated) {i : ScreenId} {k : Kind}
    (hi : s.kindAt i = some k) (hk : k = .forgotPassword ∨ k = .viewProfile) :
    Navigated { s with timers := s.timers ++ [i] } where
  nodup := h.nodup
  stack := h.stack
  presented := h.presented
  timers := by
    refine List.forall_mem_append.mpr ⟨h.timers, fun l hl => ?_⟩
    obtain rfl := List.mem_singleton.mp hl
    rcases hk with rfl | rfl
    · exact .inl hi
    · exact .inr hi

theorem kept_of_not_makes (left : List ScreenId) {i : ScreenId} {s : App} {c : Command}
    {k : Kind} (hm : makes c = false) (hr : k.runs c) (hi : s.kindAt i = some k) :
    Kept s (perform t left i s c).1 ∧ Unmade s (perform t left i s c).1 := by
  cases c with
  | become sc =>
    rw [perform_become]
    simp only [Kind.runs, decide_eq_true_eq] at hr
    exact kept_become (hr ▸ hi)
  | call c =>
    rw [perform_call]
    exact kept_serve s _
  | push | presentForgotPassword => simp [makes] at hm
  | pop =>
    rcases perform_pop t left i s with he | ⟨j, k', stack, hs, he⟩
    · exact he ▸ ⟨Kept.refl s, fun _ h => h⟩
    · exact he ▸ ⟨⟨fun _ _ h => h, fun h => navigated_pop h hs⟩, fun _ h => h⟩
  | dismiss =>
    rw [perform_dismiss]
    split_ifs
    · exact ⟨⟨fun _ _ h => h, fun h => h.of_kept (fun _ _ h => h) rfl (by simp) fun _ h => h⟩,
        fun _ h => h⟩
    · exact ⟨Kept.refl s, fun _ h => h⟩
  | dispatchAfter =>
    rw [perform_dispatchAfter]
    simp only [Kind.runs, decide_eq_true_eq] at hr
    exact ⟨⟨fun _ _ h => h, fun h => navigated_timer h hi hr⟩, fun _ h => h⟩
  | listenFireBase | listenAuth | beginIgnoring | endIgnoring | alert | log | raise =>
    cases left <;> exact ⟨.of_same rfl rfl rfl rfl, fun _ h => h⟩

/-! ### Screens that are made -/

theorem navigated_push {s : App} (h : s.Navigated) {i j : ScreenId} {k k' : Kind}
    (hi : s.kindAt i = some k) (hm : i ∈ s.stack) (hp : k.pushes k') (hj : s.screens j = none) :
    Navigated ({ s with stack := j :: s.stack }.appear k' j).1 := by
  have hkept : KindsKept s ({ s with stack := j :: s.stack }.appear k' j).1 :=
    kindsKept_appear (s := { s with stack := j :: s.stack }) hj k'
  have hnew : ({ s with stack := j :: s.stack }.appear k' j).1.kindAt j = some k' := by
    rw [appear, kindAt_update, if_pos rfl]
    cases k' <;> rfl
  refine ⟨List.nodup_cons.mpr ⟨fun hs => ?_, h.nodup⟩, .inr ?_,
    fun l hl => hkept l _ (h.presented l hl),
    fun l hl => (h.timers l hl).imp (hkept l _) (hkept l _)⟩
  · have ha := h.alive hs
    simp [hj] at ha
  · rcases h.stack with he | ⟨ks, hg, hks⟩
    · simp [he] at hm
    · refine ⟨k' :: ks, hg.push ⟨k, ?_, hp⟩, ?_⟩
      · have hmem : s.kindAt i ∈ ks.map some := hks ▸ List.mem_map_of_mem hm
        simpa [hi] using hmem
      · change kindAt _ j :: s.stack.map _ = some k' :: ks.map some
        rw [hnew, h.kept_kinds hkept, hks]

theorem navigated_present {s : App} (h : s.Navigated) {j : ScreenId} (hj : s.screens j = none) :
    Navigated ({ s with presented := some j }.appear .forgotPassword j).1 := by
  have hkept : KindsKept s ({ s with presented := some j }.appear .forgotPassword j).1 :=
    kindsKept_appear (s := { s with presented := some j }) hj .forgotPassword
  refine ⟨h.nodup, ?_, fun l hl => ?_, fun l hl => (h.timers l hl).imp (hkept l _) (hkept l _)⟩
  · refine h.stack.imp_right ?_
    rintro ⟨ks, hg, hks⟩
    exact ⟨ks, hg, (h.kept_kinds hkept).trans hks⟩
  · obtain rfl : j = l := Option.some.inj hl
    rw [appear, kindAt_update, if_pos rfl]
    rfl

theorem fst_runAll_cons {α : Type} (f : App → α → Outcome) (s : App) (c : α) (cs : List α) :
    (runAll f s (c :: cs)).1 = (f s c).1 ∨
      (runAll f s (c :: cs)).1 = (runAll f (f s c).1 cs).1 := by
  rw [runAll, Sequence.runAll_cons]
  unfold Sequence.andThen
  split
  · exact .inl rfl
  · exact .inr rfl

theorem kept_runAll_plain (left : List ScreenId) {i : ScreenId} {k : Kind} {cs : List Command}
    (hm : cs.countP makes = 0) (hr : ∀ c ∈ cs, k.runs c) {s : App} (hi : s.kindAt i = some k) :
    Kept s (runAll (perform t left i) s cs).1 := by
  induction cs generalizing s with
  | nil => exact Kept.refl s
  | cons c cs ih =>
    obtain ⟨hc, hcs⟩ := List.forall_mem_cons.mp hr
    rw [List.countP_cons] at hm
    have hcm : makes c = false := by
      cases h : makes c <;> simp [h] at hm ⊢
    obtain ⟨hk, -⟩ := kept_of_not_makes (t := t) left hcm hc hi
    rcases fst_runAll_cons (perform t left i) s c cs with he | he <;> rw [he]
    · exact hk
    · exact hk.trans (ih (by omega) hcs (hk.kinds i k hi))

/-- Of a list of commands at most one makes a screen, and it finds the addresses unused. -/
theorem kept_runAll {left : List ScreenId} {i : ScreenId} {k : Kind}
    (hf : ∀ s c, k.runs c → s.kindAt i = some k → (∀ j ∈ left, s.screens j = none) →
      Kept s (perform t left i s c).1)
    {cs : List Command} (hm : cs.countP makes ≤ 1) (hr : ∀ c ∈ cs, k.runs c) {s : App}
    (hi : s.kindAt i = some k) (hl : ∀ j ∈ left, s.screens j = none) :
    Kept s (runAll (perform t left i) s cs).1 := by
  induction cs generalizing s with
  | nil => exact Kept.refl s
  | cons c cs ih =>
    obtain ⟨hc, hcs⟩ := List.forall_mem_cons.mp hr
    rw [List.countP_cons] at hm
    have hk := hf s c hc hi hl
    rcases fst_runAll_cons (perform t left i) s c cs with he | he <;> rw [he]
    · exact hk
    · cases hcm : makes c with
      | true =>
        simp only [hcm, if_true] at hm
        exact hk.trans (kept_runAll_plain left (by omega) hcs (hk.kinds i k hi))
      | false =>
        obtain ⟨-, hu⟩ := kept_of_not_makes (t := t) left hcm hc hi
        exact hk.trans (ih (by omega) hcs (hk.kinds i k hi) fun j hj => hu j (hl j hj))

/-- What a screen runs keeps the classes, if its class runs it and the addresses are free. -/
def KeepsKinds (left : List ScreenId) (i : ScreenId) (s : App) (c : Command) (r : Outcome) :
    Prop :=
  left.Nodup → ∀ k : Kind, k.runs c → s.kindAt i = some k →
    (∀ j ∈ left, s.screens j = none) → Kept s r.1

theorem kept_perform {left : List ScreenId} (hn : left.Nodup) {i : ScreenId} {k : Kind} {s : App}
    {c : Command} (hr : k.runs c) (hi : s.kindAt i = some k)
    (hl : ∀ j ∈ left, s.screens j = none) : Kept s (perform t left i s c).1 := by
  -- a screen that is made runs what its class lets it, with the addresses that are left
  have hload : ∀ j left, (j :: left).Nodup → (∀ s c, KeepsKinds left j s c
        (perform t left j s c)) → ∀ (s' : App) (k' : Kind) (didLogin : Bool),
      (∀ l ∈ left, s'.screens l = none) →
        Kept (s'.appear k' j).1 (runAll (perform t left j) (s'.appear k' j).1
          (k'.viewDidLoad didLogin)).1 := by
    intro j left hn ih s' k' didLogin hl'
    obtain ⟨hj, hn⟩ := List.nodup_cons.mp hn
    refine kept_runAll (fun s c hr hi hl => ih s c hn _ hr hi hl) (viewDidLoad_makes k' didLogin)
      (k'.runs_viewDidLoad didLogin) ?_ fun l hm => ?_
    · rw [appear, kindAt_update, if_pos rfl]
      cases k' <;> rfl
    · exact (Function.update_of_ne (ne_of_mem_of_not_mem hm hj) _ _).trans (hl' l hm)
  refine perform_induct (motive := KeepsKinds) ?_ ?_ ?_ ?_ left i s c hn k hr hi hl
  · exact fun _ _ s _ _ _ _ _ _ _ => Kept.refl s
  · exact fun left _ _ _ hm _ _ hr hi _ => (kept_of_not_makes left hm hr hi).1
  · intro j left i s k' hst ih hn k hr hi hl
    obtain ⟨hlj, hl⟩ := List.forall_mem_cons.mp hl
    have hk : Kept s ({ s with stack := j :: s.stack }.appear k' j).1 :=
      ⟨kindsKept_appear (s := { s with stack := j :: s.stack }) hlj k',
        fun h => navigated_push h hi hst hr hlj⟩
    exact closed_kept.andThen hk (hload j left hn ih { s with stack := j :: s.stack } k' _ hl)
  · intro j left i s ih hn k hr hi hl
    obtain ⟨hlj, hl⟩ := List.forall_mem_cons.mp hl
    have hk : Kept s ({ s with presented := some j }.appear .forgotPassword j).1 :=
      ⟨kindsKept_appear (s := { s with presented := some j }) hlj .forgotPassword,
        fun h => navigated_present h hlj⟩
    exact closed_kept.andThen hk
      (hload j left hn ih { s with presented := some j } .forgotPassword _ hl)

theorem kept_performAll {left : List ScreenId} (hn : left.Nodup) {i : ScreenId} {k : Kind}
    {s : App} {cs : List Command} (hm : cs.countP makes ≤ 1) (hr : ∀ c ∈ cs, k.runs c)
    (hi : s.kindAt i = some k) (hl : ∀ j ∈ left, s.screens j = none) :
    Kept s (runAll (perform t left i) s cs).1 :=
  kept_runAll (fun _ _ hr hi hl => kept_perform hn hr hi hl) hm hr hi hl

theorem kept_deliver {left : List ScreenId} (hn : left.Nodup) {s : App} (m : Message)
    (hl : ∀ j ∈ left, s.screens j = none) : Kept s (deliver t left s m).1 := by
  unfold deliver
  cases h : s.listening m with
  | none => exact Kept.refl s
  | some x =>
    obtain ⟨i, sc⟩ := x
    obtain ⟨-, hsc⟩ := listening_eq_some.mp h
    cases hc : sc.receive s.service.newUser m with
    | none => simpa only [hc] using .of_same rfl rfl rfl rfl
    | some cs =>
      simp only [hc]
      exact kept_performAll hn (receive_makes hc) (Screen.runs_receive hc)
        (by simp [kindAt, hsc]) hl

theorem kept_settle_serve {left : List ScreenId} (hn : left.Nodup) {s : App} {e : ServiceEvent}
    {r : Done} (hs : s.raised = none) (hr : s.service.step e = some r)
    (hl : ∀ j ∈ left, s.screens j = none) : Kept s (settle t left (s.serve e)).1 := by
  cases hm : s.service.announced e with
  | none =>
    rw [settle_serve_of_none hm]
    exact (kept_serve s e).1
  | some m =>
    rw [settle_serve_of_some hs hr hm]
    have hserve : Kept s { s with service := r.1 } := .of_same rfl rfl rfl rfl
    exact hserve.trans (kept_deliver hn m hl)

theorem kept_tell (left : List ScreenId) (s : App) (v : Uid) (o : Nat) :
    Kept s (tell t left v s o).1 := by
  cases hr : s.service.step (.childAdded o v) with
  | none => simpa [tell, serve, hr, settle, andThen, runAll] using Kept.refl s
  | some r =>
    have hserve : Kept s { s with service := r.1 } := .of_same rfl rfl rfl rfl
    cases hs : s.raised with
    | none =>
      cases hm : s.service.announced (.childAdded o v) with
      | none =>
        rw [tell, settle_serve_of_none hm]
        exact (kept_serve s _).1
      | some m =>
        obtain ⟨d, -, rfl⟩ := Option.map_eq_some_iff.mp hm
        rw [tell, settle_serve_of_some hs hr hm, deliver_successProfile]
        split
        · exact hserve
        · next i fs hl =>
          obtain ⟨-, hsc⟩ := listening_eq_some.mp hl
          refine hserve.trans (kept_become (s := { s with service := r.1 }) ?_).1
          exact congrArg (Option.map Screen.kind) hsc
        · exact hserve.trans (.of_same rfl rfl rfl rfl)
    | some x =>
      rw [tell, serve_of_step hr, settle, andThen, Sequence.andThen_of_stop crashed]
      · exact hserve
      · simp [crashed, hs]

/-! ### Whole events -/

theorem release_spec {s : App} {e : Event} {r : Outcome} {i : ScreenId} (h : s.step e = some r)
    (ha : e.act = .release i) : ¬ s.inHierarchy i ∧ i ∉ s.timers ∧
      r = ({ s.reserve e with screens := Function.update s.screens i none }, []) := by
  unfold step at h
  split_ifs at h
  simp only [ha, act] at h
  split_ifs at h with hi
  exact ⟨hi.2.1, hi.2.2, (Option.some.inj h).symm⟩

theorem navigated_release {s s' : App} (h : s.Navigated) {i : ScreenId} (hi : ¬ s.inHierarchy i)
    (ht : i ∉ s.timers)
    (he : s' = { s with screens := Function.update s.screens i none, used := s'.used }) :
    s'.Navigated := by
  simp only [inHierarchy, decide_eq_true_eq, not_or] at hi
  have hkind : ∀ j ≠ i, s'.kindAt j = s.kindAt j := by
    intro j hj
    rw [he]
    exact (kindAt_update s i j none).trans (if_neg hj)
  rw [he] at hkind ⊢
  refine ⟨h.nodup, ?_, fun j hj => ?_, fun j hj => ?_⟩
  · refine h.stack.imp_right ?_
    rintro ⟨ks, hg, hks⟩
    refine ⟨ks, hg, hks ▸ List.map_congr_left fun j hj => hkind j ?_⟩
    exact ne_of_mem_of_not_mem hj hi.1
  · rw [hkind j (by rintro rfl; exact hi.2 hj)]
    exact h.presented j hj
  · rw [hkind j (ne_of_mem_of_not_mem hj ht)]
    exact h.timers j hj

theorem navigated_launch {s : App} (h : s.Navigated) {j : ScreenId} (hj : s.screens j = none) :
    Navigated ({ s with stack := [j] }.appear .menu j).1 := by
  have hkept : KindsKept s ({ s with stack := [j] }.appear .menu j).1 :=
    kindsKept_appear (s := { s with stack := [j] }) hj .menu
  refine ⟨List.nodup_singleton j, .inr ⟨[.menu], .root, ?_⟩,
    fun i hi => hkept i _ (h.presented i hi),
    fun i hi => (h.timers i hi).imp (hkept i _) (hkept i _)⟩
  change [kindAt _ j] = [some .menu]
  rw [appear, kindAt_update, if_pos rfl]
  rfl

theorem step_cases {s : App} {e : Event} {r : Outcome} (h : s.step e = some r)
    (hnew : ∀ j ∈ [e.fresh, e.fresh'], s.screens j = none) (hn : s.Navigated) :
    r.1.Navigated ∧ ∀ i k, s.kindAt i = some k → r.1.kindAt i = none ∨ r.1.kindAt i = some k := by
  have hne : e.fresh ≠ e.fresh' := by
    have hs := (step_taken h).supplies
    simp only [supplies, decide_eq_true_eq] at hs
    exact hs.2.2
  have hnd : [e.fresh, e.fresh'].Nodup := by simpa using hne
  have hre : Navigated (s.reserve e) := hn.of_kept (fun _ _ h => h) rfl (fun _ h => h) fun _ h => h
  have hkept : ∀ {s' : App}, KindsKept s s' →
      ∀ i k, s.kindAt i = some k → s'.kindAt i = none ∨ s'.kindAt i = some k :=
    fun hk i k hi => .inr (hk i k hi)
  obtain ⟨hraised, hservice, -, hd⟩ := step_taken h
  cases hd with
  | launch =>
    have hl := navigated_launch hre (hnew e.fresh (by simp))
    have hk : Kept ({ s.reserve e with stack := [e.fresh] }.appear .menu e.fresh).1
        (andThen ({ s.reserve e with stack := [e.fresh] }.appear .menu e.fresh) fun s' =>
          runAll (perform e.stringTime [e.fresh'] e.fresh) s'
            (Kind.viewDidLoad s.service.didLogin .menu)).1 := by
      refine closed_kept.andThen (Kept.refl _) (kept_performAll (List.nodup_singleton _)
        (viewDidLoad_makes .menu _) (Kind.runs_viewDidLoad .menu _) ?_ fun j hj => ?_)
      · rw [appear, kindAt_update, if_pos rfl]
        rfl
      · obtain rfl := List.mem_singleton.mp hj
        exact (Function.update_of_ne hne.symm _ _).trans (hnew e.fresh' (by simp))
    exact ⟨hk.navigated hl, hkept ((kindsKept_appear
      (s := { s.reserve e with stack := [e.fresh] }) (hnew e.fresh (by simp)) .menu).trans
        hk.kinds)⟩
  | @touch i touch sc cs ha hi hsc hcs =>
    have hk : Kept (s.reserve e) (settle e.stringTime [e.fresh, e.fresh']
        (runAll (perform e.stringTime [e.fresh, e.fresh'] i) (s.reserve e) cs)).1 := by
      rcases settle_touched (s := s.reserve e) hservice hcs e.stringTime [e.fresh, e.fresh'] i with
        ⟨keychain, rfl, hstep, he⟩ | ⟨-, -, he⟩ <;> rw [he]
      · exact kept_settle_serve hnd (s := s.reserve e) hraised hstep hnew
      · exact kept_performAll hnd (s := s.reserve e) (touched_makes hcs) (Screen.runs_touched hcs)
          (congrArg (Option.map Screen.kind) hsc) hnew
    exact ⟨hk.navigated hre, hkept hk.kinds⟩
  | pop ha hs => exact ⟨navigated_pop hre hs, hkept fun _ _ h => h⟩
  | @release i ha =>
    obtain ⟨hi, ht, -⟩ := release_spec h ha
    refine ⟨navigated_release hre hi ht rfl, fun j k hj => ?_⟩
    by_cases hji : j = i
    · exact .inl (by simp [kindAt, hji])
    · exact .inr (by simpa [kindAt, hji] using hj)
  | @timer i sc ha hsc =>
    have hp : Navigated { s.reserve e with timers := s.timers.erase i } :=
      hre.of_kept (fun _ _ h => h) rfl (fun _ h => h) fun _ h => List.mem_of_mem_erase h
    have hk := kept_performAll hnd (s := { s.reserve e with timers := s.timers.erase i })
      (t := e.stringTime) (deferred_makes _) (Kind.runs_deferred _)
      (congrArg (Option.map Screen.kind) hsc) hnew
    exact ⟨hk.navigated hp, hkept hk.kinds⟩
  | @silent se =>
    have hk := (kept_serve (s.reserve e) se).1
    exact ⟨hk.navigated hre, hkept hk.kinds⟩
  | report ha hr =>
    have hk := kept_settle_serve hnd (t := e.stringTime) (s := s.reserve e) hraised hr hnew
    exact ⟨hk.navigated hre, hkept hk.kinds⟩
  | @childAdded v =>
    have hk : Kept (s.reserve e) ((s.reserve e).childAdded e.stringTime [e.fresh, e.fresh'] v).1 :=
      closed_kept.runAll (fun s o _ => kept_tell _ s v o) (s.reserve e)
    exact ⟨hk.navigated hre, hkept hk.kinds⟩

/-- Screens come into being at the addresses that an event supplies. -/
theorem made_fresh {s : App} {e : Event} {r : Outcome} (h : s.step e = some r)
    (hn : s.Navigated) {j : ScreenId} (hj : (r.1.screens j).isSome) :
    (s.screens j).isSome ∨ j ∈ [e.fresh, e.fresh'] := by
  have hsome : ∀ i k, s.kindAt i = some k → (s.screens i).isSome := fun i k hi => by
    have hs : (s.kindAt i).isSome := hi ▸ rfl
    simpa [kindAt] using hs
  have ha : Addressed (fun i => (s.screens i).isSome ∨ i ∈ [e.fresh, e.fresh']) s :=
    { screens := fun i hi => .inl hi
      stack := fun i hi => .inl (hn.alive hi)
      presented := fun i hi => .inl (hsome i _ (hn.presented i hi))
      timers := fun i hi => .inl ((hn.timers i hi).elim (hsome i _) (hsome i _)) }
  exact (addressed_does (step_taken h).does ha fun j hj => .inr hj).screens j hj

theorem unused_new {s₀ s : App} {h : AppHistory} (hl : Launch s₀) (hr : machine.Run s₀ h s)
    {e : Event} {r : Outcome} (hs : s.step e = some r) {j : ScreenId}
    (hj : j ∈ [e.fresh, e.fresh']) : s.screens j = none := by
  by_contra hsome
  exact not_mem_used_of_fresh hs hj
    ((addressed_of_run hl hr).screens j (Option.isSome_iff_ne_none.mpr hsome))

theorem navigated_of_run {s₀ s : App} {h : AppHistory} (hl : Launch s₀)
    (hr : machine.Run s₀ h s) : s.Navigated := by
  induction hr with
  | nil => exact ⟨by simp [hl.stack], .inl hl.stack, by simp [hl.presented], by simp [hl.timers]⟩
  | cons hr hm ih => exact (step_cases hm (fun _ hj => unused_new hl hr hm hj) ih).1

theorem isSome_kindAt (s : App) (i : ScreenId) : (s.kindAt i).isSome = (s.screens i).isSome :=
  Option.isSome_map

/-- An address that had a screen of some class has had a screen of no other since. -/
theorem kind_fixed {s₀ s : App} {h : AppHistory} (hl : Launch s₀) (hr : machine.Run s₀ h s)
    {m : AppMove} (hm : m ∈ h) {i : ScreenId} {k : Kind} (hi : m.before.kindAt i = some k) :
    i ∈ s.used ∧ (s.kindAt i = none ∨ s.kindAt i = some k) := by
  induction hr with
  | nil => cases hm
  | @cons h m' hr hf ih =>
    have hn := navigated_of_run hl hr
    obtain ⟨-, hstep⟩ := step_cases hf (fun _ hj => unused_new hl hr hf hj) hn
    have hu : m'.after.used = m'.event.fresh :: m'.event.fresh' :: m'.before.used := used_step hf
    have hsub : i ∈ m'.before.used → i ∈ m'.after.used := fun hi => by
      rw [hu]
      exact List.mem_cons_of_mem _ (List.mem_cons_of_mem _ hi)
    rcases List.mem_cons.mp hm with rfl | hm
    · refine ⟨hsub ((addressed_of_run hl hr).screens i ?_), hstep i k hi⟩
      rw [← isSome_kindAt, hi]
      rfl
    · obtain ⟨hused, hnone | hsome⟩ := ih hm
      · refine ⟨hsub hused, .inl (Option.not_isSome_iff_eq_none.mp fun hback => ?_)⟩
        rw [isSome_kindAt] at hback
        rcases made_fresh hf hn hback with hb | hb
        · rw [← isSome_kindAt, hnone] at hb
          cases hb
        · exact not_mem_used_of_fresh hf hb hused
      · exact ⟨hsub hused, hstep i k hsome⟩

/-- What lies below a screen of the stack: the root is a Menu, and any other screen lies
above one of a class that pushes its own. -/
theorem pushed_below {s : App} (hn : s.Navigated) {above below : List ScreenId} {i : ScreenId}
    (hs : s.stack = above ++ i :: below) : (s.kindAt i = some .menu ∧ below = []) ∨
      ∃ k, s.kindAt i = some k ∧ ∃ j ∈ below, ∃ k', s.kindAt j = some k' ∧ k'.pushes k := by
  rcases hn.stack with he | ⟨ks, hg, hm⟩
  · simp [he] at hs
  · rw [hs, List.map_append, List.map_cons] at hm
    obtain ⟨ks₁, ks₂, rfl, h₁, h₂⟩ := List.append_eq_map_iff.mp hm
    obtain ⟨k, ks₃, rfl, hk, h₃⟩ := List.map_eq_cons_iff.mp h₂
    rcases hg.pushed rfl with ⟨rfl, rfl⟩ | ⟨k', hk', hp⟩
    · exact .inl ⟨hk.symm, by simpa using h₃⟩
    · obtain ⟨j, hj, he⟩ := List.mem_map.mp (h₃ ▸ List.mem_map_of_mem hk')
      exact .inr ⟨k, hk.symm, j, hj, k', he, hp⟩

/-- In every run of the app the stack has grown from one Menu by pushes, no screen is on it
twice, and what is on it, is presented or waits for a `dispatch_after` block exists. Below each
screen but the root is one that pushes its class. A screen keeps its class, and no other comes
to its address. -/
theorem navigation_well_formed {s₀ s : App} {h : AppHistory} (hl : Launch s₀)
    (hr : machine.Run s₀ h s) : s.Navigated ∧
      (∀ above i below, s.stack = above ++ i :: below →
        (s.kindAt i = some .menu ∧ below = []) ∨
          ∃ k, s.kindAt i = some k ∧ ∃ j ∈ below, ∃ k', s.kindAt j = some k' ∧ k'.pushes k) ∧
      ∀ m ∈ h, ∀ i k, m.before.kindAt i = some k → s.kindAt i = none ∨ s.kindAt i = some k :=
  ⟨navigated_of_run hl hr, fun _ _ _ hs => pushed_below (navigated_of_run hl hr) hs,
    fun _ hm _ _ hi => (kind_fixed hl hr hm hi).2⟩

def editTour : List Event :=
  script 0 [.launch, .answer 0 (.fetched "u" (.dict (Service.signupRecord "u"))), .complete 0,
    .touch 1 .editProfileButton, .pop, .release 6, .touch 1 .singleTapping]

theorem edit_tour_navigated :
    let r := (machine.exec [] (start (Service.launch (some "u") ["u"])) editTour).get (by decide)
    r.2.Navigated ∧ r.2.stack.length = 3 := by
  intro r
  exact ⟨(navigation_well_formed (start_launch (some "u") ["u"]) (Machine.exec_run (by decide))).1,
    by decide⟩

end App

end Mioto
