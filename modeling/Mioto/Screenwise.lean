import Mioto.ChildAdded

/-! Invariants told of the services and of each screen on its own. What a screen becomes and
what it calls is decided by the screen and the cache alone, so such an invariant is kept by
all acts of the app if the methods of the screens and of the services keep it. -/

namespace Mioto

/-- What a command passes on: the screen it leaves and the arguments of the call it makes. -/
def Command.Fits (J : Screen → Prop) (C : Call → Prop) : Command → Prop
  | .become sc => J sc
  | .call c => C c
  | _ => True

namespace App

structure Holds (I : Service → Prop) (J : ScreenId → Screen → Prop) (s : App) : Prop where
  service : I s.service
  screens : ∀ i sc, s.screens i = some sc → J i sc

/-- `I` is kept by the calls in `C`, and the screens with `J` make no others and become no
others, whatever they hear in `M` and whichever touch in `T` they get. New screens have
addresses in `F`. -/
structure Keeps (I : Service → Prop) (J : ScreenId → Screen → Prop) (C : Call → Prop)
    (M : Message → Prop) (T : Touch → Prop) (F : ScreenId → Prop) (t : String) : Prop where
  loaded : ∀ s k i, I s → F i → J i (Kind.loaded s.newUser k)
  loads : C .fetchData ∧ C .fetchAllData
  call : ∀ s i c r, I s → C c → s.step (.call i t c) = some r → I r.1
  receive : ∀ s i sc m cs, I s → J i sc → M m → sc.receive s.newUser m = some cs →
    ∀ c ∈ cs, c.Fits (J i) C
  touched : ∀ i sc touch cs, J i sc → T touch → sc.touched touch = some cs →
    ∀ c ∈ cs, c.Fits (J i) C
  authStatus : ∀ status, M (.authStatus status)

variable {I : Service → Prop} {J : ScreenId → Screen → Prop} {C : Call → Prop}
  {M : Message → Prop} {T : Touch → Prop} {F : ScreenId → Prop} {t : String}

theorem Holds.update {s : App} (h : Holds I J s) (i : ScreenId) {sc : Option Screen}
    (hsc : ∀ x ∈ sc, J i x) : Holds I J { s with screens := Function.update s.screens i sc } where
  service := h.service
  screens j x hj := by
    by_cases hji : j = i
    · subst hji
      exact hsc x (by simpa using hj)
    · exact h.screens j x (by simpa [hji] using hj)

theorem Holds.appear {s : App} (h : Holds I J s) (hk : Keeps I J C M T F t) (k : Kind)
    {j : ScreenId} (hj : F j) : Holds I J (s.appear k j).1 :=
  h.update j fun x hx => by
    obtain rfl := Option.mem_some_iff.mp hx
    exact hk.loaded s.service k j h.service hj

theorem holds_serve_call {s : App} (h : Holds I J s) (hk : Keeps I J C M T F t) (i : ScreenId)
    {c : Call} (hc : C c) : Holds I J (s.serve (.call i t c)).1 := by
  cases hr : s.service.step (.call i t c) with
  | none => simpa only [serve, hr] using h
  | some r =>
    rw [serve_of_step hr]
    exact ⟨hk.call _ i c r h.service hc hr, h.screens⟩

theorem fits_viewDidLoad (hk : Keeps I J C M T F t) (i : ScreenId) (k : Kind) (didLogin : Bool) :
    ∀ c ∈ Kind.viewDidLoad didLogin k, c.Fits (J i) C := by
  intro c hc
  cases c with
  | call c => rcases viewDidLoad_call hc with rfl | rfl <;> [exact hk.loads.1; exact hk.loads.2]
  | become sc =>
    cases k <;> cases didLogin <;> revert hc <;> simp [Kind.viewDidLoad,
      MenuScreen.viewDidLoad, MenuScreen.autoLogin, SigninScreen.viewDidLoad,
      SignupScreen.viewDidLoad, ForgotPasswordScreen.viewDidLoad, ProfileScreen.viewDidLoad,
      EditProfileScreen.viewDidLoad, ViewProfileScreen.viewDidLoad, FriendsScreen.viewDidLoad]
  | _ => trivial

theorem closed_holds (I : Service → Prop) (J : ScreenId → Screen → Prop) :
    Sequence.Closed fun (s : App) (r : Outcome) => Holds I J s → Holds I J r.1 where
  refl _ := id
  trans h h' hs := h' (h hs)

theorem Keeps.deeds (hk : Keeps I J C M T F t) {fresh : List ScreenId} (hf : ∀ j ∈ fresh, F j) :
    Deeds (fun s r => Holds I J s → Holds I J r.1) t fresh fun i c => c.Fits (J i) C where
  closed := closed_holds I J
  loads j _ k didLogin c hc := fits_viewDidLoad hk j k didLogin c hc
  deed := by
    intro s r hd h
    cases hd with
    | become hc => exact h.update _ fun x hx => Option.mem_some_iff.mp hx ▸ hc
    | call hc => exact holds_serve_call h hk _ hc
    | @push i j k _ hj =>
      exact Holds.appear (s := { s with stack := j :: s.stack }) ⟨h.service, h.screens⟩ hk k
        (hf j hj)
    | @present i j _ hj =>
      exact Holds.appear (s := { s with presented := some j }) ⟨h.service, h.screens⟩ hk _ (hf j hj)
    | _ => exact ⟨h.service, h.screens⟩

theorem Keeps.performAll (hk : Keeps I J C M T F t) {fresh : List ScreenId}
    (hf : ∀ j ∈ fresh, F j) {i : ScreenId} {s : App} {cs : List Command} (h : Holds I J s)
    (hc : ∀ c ∈ cs, c.Fits (J i) C) : Holds I J (runAll (perform t fresh i) s cs).1 :=
  (hk.deeds hf).performAll s hc h

theorem Keeps.deliver (hk : Keeps I J C M T F t) {fresh : List ScreenId} (hf : ∀ j ∈ fresh, F j)
    {s : App} {m : Message} (h : Holds I J s) (hm : M m) :
    Holds I J (deliver t fresh s m).1 := by
  unfold App.deliver
  cases hl : s.listening m with
  | none => exact h
  | some x =>
    obtain ⟨i, sc⟩ := x
    obtain ⟨-, hsc⟩ := listening_eq_some.mp hl
    cases hc : sc.receive s.service.newUser m with
    | none =>
      simp only [hc]
      exact ⟨h.service, h.screens⟩
    | some cs =>
      simp only [hc]
      exact hk.performAll hf h
        (hk.receive s.service i sc m cs h.service (h.screens i sc hsc) hm hc)

theorem Keeps.settle_serve (hk : Keeps I J C M T F t) {fresh : List ScreenId}
    (hf : ∀ j ∈ fresh, F j) {s : App} {e : ServiceEvent} {r : Done} (h : Holds I J s)
    (hs : s.raised = none)
    (hr : s.service.step e = some r) (hI : I r.1) (hM : ∀ m ∈ s.service.announced e, M m) :
    Holds I J (settle t fresh (s.serve e)).1 := by
  have hserved : Holds I J { s with service := r.1 } := ⟨hI, h.screens⟩
  cases hm : s.service.announced e with
  | none =>
    rw [settle_serve_of_none hm, serve_of_step hr]
    exact hserved
  | some m =>
    rw [settle_serve_of_some hs hr hm]
    exact hk.deliver hf hserved (hM m hm)

/-- What is kept while the observers are told of a child; `E` may speak of the database, which
the reports leave alone. -/
theorem Keeps.tell (hk : Keeps I J C M T F t) {fresh : List ScreenId} (hf : ∀ j ∈ fresh, F j)
    {E : Service → Prop} {v : Uid}
    (ht : ∀ sv o rr, E sv → I sv → sv.step (.childAdded o v) = some rr →
      I rr.1 ∧ E rr.1 ∧ ∀ m ∈ sv.announced (.childAdded o v), M m)
    {s : App} (h : Holds I J s) (hE : E s.service) (o : Nat) :
    Holds I J (tell t fresh v s o).1 ∧ E (tell t fresh v s o).1.service := by
  cases hr : s.service.step (.childAdded o v) with
  | none => simpa [App.tell, serve, hr, settle, andThen, runAll] using And.intro h hE
  | some r =>
    obtain ⟨hI, hE', hM⟩ := ht s.service o r hE h.service hr
    have hserved : Holds I J { s with service := r.1 } := ⟨hI, h.screens⟩
    cases hs : s.raised with
    | some x =>
      rw [App.tell, serve_of_step hr, settle, andThen, Sequence.andThen_of_stop crashed]
      · exact ⟨hserved, hE'⟩
      · simp [crashed, hs]
    | none =>
      cases hm : s.service.announced (.childAdded o v) with
      | none =>
        rw [App.tell, settle_serve_of_none hm, serve_of_step hr]
        exact ⟨hserved, hE'⟩
      | some m =>
        rw [App.tell, settle_serve_of_some hs hr hm]
        refine ⟨hk.deliver hf hserved (hM m hm), ?_⟩
        obtain ⟨d, -, rfl⟩ := Option.map_eq_some_iff.mp hm
        rw [deliver_successProfile]
        split <;> exact hE'

theorem fits_deferred (i : ScreenId) (k : Kind) : ∀ c ∈ k.deferred, c.Fits (J i) C := by
  cases k <;> simp [Kind.deferred, Command.Fits]

/-- What a whole event keeps, given what its own step of the services does. -/
theorem Keeps.step {s : App} {e : Event} {r : Outcome} (hk : Keeps I J C M T F e.stringTime)
    (hr : s.step e = some r) (hf : ∀ j ∈ [e.fresh, e.fresh'], F j) (h : Holds I J s)
    (hT : ∀ i touch, e.act = .touch i touch → T touch)
    (hserve : ∀ se rr, e.act.silent = some se ∨ e.act.report e.stringTime = some se →
      s.service.step se = some rr → I rr.1 ∧ ∀ m ∈ s.service.announced se, M m)
    {E : Service → Prop} (hE : E s.service)
    (ht : ∀ v, e.act = .childAdded v → ∀ sv o rr, E sv → I sv →
      sv.step (.childAdded o v) = some rr →
        I rr.1 ∧ E rr.1 ∧ ∀ m ∈ sv.announced (.childAdded o v), M m) : Holds I J r.1 := by
  obtain ⟨hn, hs, -, hd⟩ := step_taken hr
  have hre : Holds I J (s.reserve e) := ⟨h.service, h.screens⟩
  cases hd with
  | launch =>
    have happear : Holds I J ({ s.reserve e with stack := [e.fresh] }.appear .menu e.fresh).1 :=
      Holds.appear (s := { s.reserve e with stack := [e.fresh] }) ⟨h.service, h.screens⟩ hk _
        (hf _ (by simp))
    exact (closed_holds I J).andThen (fun _ => happear)
      (fun h => hk.performAll (by simpa using hf e.fresh' (by simp)) h
        (fits_viewDidLoad hk e.fresh _ _)) hre
  | @touch i touch sc cs ha hi hsc hcs =>
    have hfits := hk.touched i sc touch cs (h.screens i sc hsc) (hT i touch ha) hcs
    rcases settle_touched (s := s.reserve e) hs hcs e.stringTime [e.fresh, e.fresh'] i with
      ⟨keychain, rfl, hstep, he⟩ | ⟨-, -, he⟩ <;> rw [he]
    · have hC : C (.logout keychain) := by
        cases Screen.touched_cases hcs
        exact hfits _ List.mem_cons_self
      refine hk.settle_serve hf hre hn hstep (hk.call _ _ _ _ h.service hC hstep) fun m hm => ?_
      obtain rfl := Option.mem_some_iff.mp hm
      exact hk.authStatus _
    · exact hk.performAll hf hre hfits
  | pop => exact ⟨h.service, h.screens⟩
  | release => exact hre.update _ (by simp)
  | timer => exact hk.performAll hf ⟨h.service, h.screens⟩ (fits_deferred _ _)
  | silent ha hrr =>
    rw [serve_of_step (s := s.reserve e) hrr]
    exact ⟨(hserve _ _ (.inl ha) hrr).1, h.screens⟩
  | report ha hrr =>
    obtain ⟨hI, hM⟩ := hserve _ _ (.inr ha) hrr
    exact hk.settle_serve hf (s := s.reserve e) hre hn hrr hI hM
  | @childAdded v ha =>
    have hc : Sequence.Closed fun (s : App) (r : Outcome) =>
        Holds I J s ∧ E s.service → Holds I J r.1 ∧ E r.1.service :=
      { refl := fun _ => id, trans := fun h h' hs => h' (h hs) }
    exact (hc.runAll (fun s o _ hs => hk.tell hf (ht v ha) hs.1 hs.2 o) (s.reserve e) ⟨hre, hE⟩).1

end App

end Mioto
