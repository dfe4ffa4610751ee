import Mioto.App

/-! What a command can do, told once for each command and with the screen that runs
it. A screen made on the way runs what its class runs when its view is loaded. -/

namespace Mioto

namespace App

/-- A single change made by a command that `runs` lets its screen run. Screens that are
made on the way have addresses in `fresh`. -/
inductive Deed (t : String) (fresh : List ScreenId) (runs : ScreenId → Command → Prop) (s : App) :
    Outcome → Prop
  | become {i : ScreenId} {sc : Screen} (h : runs i (.become sc)) :
      Deed t fresh runs s ({ s with screens := Function.update s.screens i (some sc) }, [])
  | listenFireBase {i : ScreenId} (h : runs i .listenFireBase) :
      Deed t fresh runs s ({ s with fireBaseListener := some i }, [.listensFireBase i])
  | listenAuth {i : ScreenId} (h : runs i .listenAuth) :
      Deed t fresh runs s ({ s with authListener := some i }, [.listensAuth i])
  | call {i : ScreenId} {c : Call} (h : runs i (.call c)) :
      Deed t fresh runs s (s.serve (.call i t c))
  | push {i j : ScreenId} {k : Kind} (h : runs i (.push k)) (hj : j ∈ fresh) :
      Deed t fresh runs s ({ s with stack := j :: s.stack }.appear k j)
  | present {i j : ScreenId} (h : runs i .presentForgotPassword) (hj : j ∈ fresh) :
      Deed t fresh runs s ({ s with presented := some j }.appear .forgotPassword j)
  | pop {i j k : ScreenId} {stack : List ScreenId} (h : runs i .pop)
      (hs : s.stack = j :: k :: stack) : Deed t fresh runs s ({ s with stack := k :: stack }, [])
  | dismiss {i : ScreenId} (h : runs i .dismiss) :
      Deed t fresh runs s ({ s with presented := none }, [])
  | dispatchAfter {i : ScreenId} (h : runs i .dispatchAfter) :
      Deed t fresh runs s ({ s with timers := s.timers ++ [i] }, [])
  | beginIgnoring {i : ScreenId} (h : runs i .beginIgnoring) :
      Deed t fresh runs s (s, [.beginIgnoring i])
  | endIgnoring {i : ScreenId} (h : runs i .endIgnoring) :
      Deed t fresh runs s (s, [.endIgnoring i])
  | alert {i : ScreenId} {text : String} (h : runs i (.alert text)) :
      Deed t fresh runs s (s, [.alert text])
  | log {i : ScreenId} {format text : String} (h : runs i (.log format text)) :
      Deed t fresh runs s (s, [.log format text])
  | raise {i : ScreenId} {x : Exn} (h : runs i (.raise x)) :
      Deed t fresh runs s ({ s with raised := some x }, [])

/-- `P` is closed under sequencing and true of each change; the screens that are made
may run what a view runs when it is loaded. -/
structure Deeds (P : App → Outcome → Prop) (t : String) (fresh : List ScreenId)
    (runs : ScreenId → Command → Prop) : Prop where
  closed : Sequence.Closed P
  loads : ∀ j ∈ fresh, ∀ k didLogin, ∀ c ∈ Kind.viewDidLoad didLogin k, runs j c
  deed : ∀ {s r}, Deed t fresh runs s r → P s r

variable {P : App → Outcome → Prop} {t : String} {fresh : List ScreenId}
  {runs : ScreenId → Command → Prop}

def makes : Command → Bool
  | .push _ | .presentForgotPassword => true
  | _ => false

theorem perform_push (t : String) (j : ScreenId) (fresh : List ScreenId) (i : ScreenId) (s : App)
    (k : Kind) : perform t (j :: fresh) i s (.push k) =
      if i ∈ s.stack then
        andThen ({ s with stack := j :: s.stack }.appear k j)
          fun s' => runAll (perform t fresh j) s' (k.viewDidLoad s.service.didLogin)
      else (s, []) := rfl

theorem perform_present (t : String) (j : ScreenId) (fresh : List ScreenId) (i : ScreenId)
    (s : App) : perform t (j :: fresh) i s .presentForgotPassword =
      if s.presented = none ∧ s.stack.head? = some i then
        andThen ({ s with presented := some j }.appear .forgotPassword j)
          fun s' => runAll (perform t fresh j) s'
            (Kind.viewDidLoad s.service.didLogin .forgotPassword)
      else (s, []) := rfl

section

variable (t) (fresh : List ScreenId) (i : ScreenId) (s : App)

@[simp] theorem perform_beginIgnoring :
    perform t fresh i s .beginIgnoring = (s, [.beginIgnoring i]) := by
  cases fresh <;> rfl

@[simp] theorem perform_endIgnoring :
    perform t fresh i s .endIgnoring = (s, [.endIgnoring i]) := by
  cases fresh <;> rfl

@[simp] theorem perform_alert (text : String) :
    perform t fresh i s (.alert text) = (s, [.alert text]) := by
  cases fresh <;> rfl

@[simp] theorem perform_log (format text : String) :
    perform t fresh i s (.log format text) = (s, [.log format text]) := by
  cases fresh <;> rfl

@[simp] theorem perform_dispatchAfter : perform t fresh i s .dispatchAfter =
    ({ s with timers := s.timers ++ [i] }, []) := by
  cases fresh <;> rfl

@[simp] theorem perform_listenFireBase : perform t fresh i s .listenFireBase =
    ({ s with fireBaseListener := some i }, [.listensFireBase i]) := by
  cases fresh <;> rfl

@[simp] theorem perform_listenAuth : perform t fresh i s .listenAuth =
    ({ s with authListener := some i }, [.listensAuth i]) := by
  cases fresh <;> rfl

@[simp] theorem perform_raise (x : Exn) :
    perform t fresh i s (.raise x) = ({ s with raised := some x }, []) := by
  cases fresh <;> rfl

@[simp] theorem perform_become (sc : Screen) : perform t fresh i s (.become sc) =
    ({ s with screens := Function.update s.screens i (some sc) }, []) := by
  cases fresh <;> rfl

theorem perform_dismiss : perform t fresh i s .dismiss =
    if s.presented = some i then ({ s with presented := none }, []) else (s, []) := by
  cases fresh <;> rfl

/-- The root of the stack is never taken off. -/
theorem perform_pop : perform t fresh i s .pop = (s, []) ∨ ∃ j k stack,
    s.stack = j :: k :: stack ∧ perform t fresh i s .pop = ({ s with stack := k :: stack }, []) := by
  rcases hs : s.stack with _ | ⟨j, _ | ⟨k, stack⟩⟩
  · exact .inl (by cases fresh <;> simp only [perform, hs])
  · exact .inl (by cases fresh <;> simp only [perform, hs])
  · by_cases hi : i ∈ j :: k :: stack
    · exact .inr ⟨j, k, stack, rfl, by cases fresh <;> simp only [perform, hs, hi, if_true]⟩
    · exact .inl (by cases fresh <;> simp only [perform, hs, hi, if_false])

end

/-- Induction over the screens that a command makes. What a screen runs when it is loaded has
one address less to give away. -/
theorem perform_induct {motive : List ScreenId → ScreenId → App → Command → Outcome → Prop}
    (idle : ∀ left i s c, makes c = true → motive left i s c (s, []))
    (plain : ∀ left i s c, makes c = false → motive left i s c (perform t left i s c))
    (push : ∀ j left i s k, i ∈ s.stack →
      (∀ s' c, motive left j s' c (perform t left j s' c)) →
        motive (j :: left) i s (.push k)
          (andThen ({ s with stack := j :: s.stack }.appear k j)
            fun s' => runAll (perform t left j) s' (k.viewDidLoad s.service.didLogin)))
    (present : ∀ j left i s,
      (∀ s' c, motive left j s' c (perform t left j s' c)) →
        motive (j :: left) i s .presentForgotPassword
          (andThen ({ s with presented := some j }.appear .forgotPassword j)
            fun s' => runAll (perform t left j) s'
              (Kind.viewDidLoad s.service.didLogin .forgotPassword)))
    (left : List ScreenId) (i : ScreenId) (s : App) (c : Command) :
    motive left i s c (perform t left i s c) := by
  induction left generalizing i s c with
  | nil =>
    cases hm : makes c with
    | false => exact plain [] i s c hm
    | true =>
      cases c <;> simp [makes] at hm
      all_goals exact idle [] i s _ rfl
  | cons j left ih =>
    cases hm : makes c with
    | false => exact plain _ i s c hm
    | true =>
      cases c <;> simp [makes] at hm
      case push k =>
        rw [perform_push]
        split
        · next hi => exact push j left i s k hi fun s' c => ih j s' c
        · exact idle _ i s _ rfl
      case presentForgotPassword =>
        rw [perform_present]
        split
        · exact present j left i s fun s' c => ih j s' c
        · exact idle _ i s _ rfl

theorem runAll_cons_of_go {α : Type} {f : App → α → Outcome} {s : App} {c : α}
    (h : (f s c).1.crashed = false) (cs : List α) :
    runAll f s (c :: cs) =
      ((runAll f (f s c).1 cs).1, (f s c).2 ++ (runAll f (f s c).1 cs).2) := by
  rw [runAll, Sequence.runAll_cons, Sequence.andThen_of_go crashed h]
  rfl

theorem Deeds.perform_of_not_makes (h : Deeds P t fresh runs) (left : List ScreenId)
    {i : ScreenId} (s : App) {c : Command} (hc : runs i c) (hm : makes c = false) :
    P s (App.perform t left i s c) := by
  cases c with
  | become sc => cases left <;> exact h.deed (.become hc)
  | listenFireBase => cases left <;> exact h.deed (.listenFireBase hc)
  | listenAuth => cases left <;> exact h.deed (.listenAuth hc)
  | call c => cases left <;> exact h.deed (.call hc)
  | push | presentForgotPassword => simp [makes] at hm
  | pop =>
    rcases perform_pop t left i s with he | ⟨j, k, stack, hs, he⟩
    · exact he ▸ h.closed.refl s
    · exact he ▸ h.deed (.pop hc hs)
  | dismiss =>
    rw [perform_dismiss]
    split_ifs
    · exact h.deed (.dismiss hc)
    · exact h.closed.refl s
  | dispatchAfter => cases left <;> exact h.deed (.dispatchAfter hc)
  | beginIgnoring => cases left <;> exact h.deed (.beginIgnoring hc)
  | endIgnoring => cases left <;> exact h.deed (.endIgnoring hc)
  | alert text => cases left <;> exact h.deed (.alert hc)
  | log format text => cases left <;> exact h.deed (.log hc)
  | raise x => cases left <;> exact h.deed (.raise hc)

theorem Deeds.perform (h : Deeds P t fresh runs) {left : List ScreenId} (hl : left ⊆ fresh)
    {i : ScreenId} (s : App) {c : Command} (hc : runs i c) : P s (App.perform t left i s c) := by
  refine perform_induct (motive := fun left i s c r => left ⊆ fresh → runs i c → P s r)
    (fun _ _ s _ _ _ _ => h.closed.refl s)
    (fun left _ s _ hm _ hc => h.perform_of_not_makes left s hc hm) ?_ ?_ left i s c hl hc
  · intro j left i s k _ ih hl hc
    obtain ⟨hj, hl⟩ := List.cons_subset.mp hl
    exact h.closed.andThen (h.deed (.push hc hj))
      (h.closed.runAll (fun s c hm => ih s c hl (h.loads j hj k _ c hm)) _)
  · intro j left i s ih hl hc
    obtain ⟨hj, hl⟩ := List.cons_subset.mp hl
    exact h.closed.andThen (h.deed (.present hc hj))
      (h.closed.runAll (fun s c hm => ih s c hl (h.loads j hj _ _ c hm)) _)

theorem Deeds.performAll (h : Deeds P t fresh runs) {i : ScreenId} (s : App) {cs : List Command}
    (hc : ∀ c ∈ cs, runs i c) : P s (runAll (App.perform t fresh i) s cs) :=
  h.closed.runAll (fun s c hm => h.perform (fun _ hj => hj) s (hc c hm)) s

theorem viewDidLoad_call {k : Kind} {didLogin : Bool} {c : Call}
    (h : .call c ∈ Kind.viewDidLoad didLogin k) : c = .fetchData ∨ c = .fetchAllData := by
  cases k with
  | menu => cases didLogin <;> simp [Kind.viewDidLoad, MenuScreen.viewDidLoad,
      MenuScreen.autoLogin] at h
  | signin | signup | forgotPassword | viewProfile =>
    simp [Kind.viewDidLoad, SigninScreen.viewDidLoad, SignupScreen.viewDidLoad,
      ForgotPasswordScreen.viewDidLoad, ViewProfileScreen.viewDidLoad] at h
  | profile => exact .inl (by simpa [Kind.viewDidLoad, ProfileScreen.viewDidLoad] using h)
  | edit => exact .inl (by simpa [Kind.viewDidLoad, EditProfileScreen.viewDidLoad] using h)
  | friends => exact .inr (by simpa [Kind.viewDidLoad, FriendsScreen.viewDidLoad] using h)

end App

end Mioto
