import Mioto.Addresses
import Mioto.ChildAdded

/-! The screens that an event makes. Each has an address of its own: they are taken
from the addresses that the event supplies, in order and at most once each. -/

namespace Mioto

def Output.load : Output → Option (ScreenId × Kind)
  | .loaded i k => some (i, k)
  | _ => none

def loads (o : List Output) : List (ScreenId × Kind) := o.filterMap Output.load

@[simp] theorem loads_nil : loads [] = [] := rfl

@[simp] theorem loads_append (o o' : List Output) : loads (o ++ o') = loads o ++ loads o' :=
  List.filterMap_append

namespace App

variable {t : String}

/-- The screens made in `r` have addresses from `fresh`, each used once. -/
def LoadsFrom (fresh : List ScreenId) (r : Outcome) : Prop :=
  ((loads r.2).map Prod.fst).Sublist fresh

theorem loadsFrom_nil {fresh : List ScreenId} {r : Outcome} (h : loads r.2 = []) :
    LoadsFrom fresh r := by simp [LoadsFrom, h]

/-- Of a list of commands at most one makes a screen. -/
theorem loadsFrom_runAll {fresh : List ScreenId} {f : App → Command → Outcome}
    (hf : ∀ s c, LoadsFrom fresh (f s c)) (hn : ∀ s c, makes c = false → loads (f s c).2 = [])
    {cs : List Command} (hc : cs.countP makes ≤ 1) (s : App) :
    LoadsFrom fresh (runAll f s cs) ∧
      (cs.countP makes = 0 → loads (runAll f s cs).2 = []) := by
  induction cs generalizing s with
  | nil => exact ⟨loadsFrom_nil rfl, fun _ => rfl⟩
  | cons c cs ih =>
    have hout : loads (runAll f s (c :: cs)).2 = loads (f s c).2 ∨
        loads (runAll f s (c :: cs)).2 =
          loads (f s c).2 ++ loads (runAll f (f s c).1 cs).2 := by
      simp only [runAll, Sequence.runAll_cons, Sequence.andThen]
      split <;> simp
    rw [List.countP_cons] at hc ⊢
    cases hm : makes c with
    | false =>
      simp only [hm, Bool.false_eq_true, if_false, Nat.add_zero] at hc ⊢
      obtain ⟨hl, hz⟩ := ih hc (f s c).1
      rw [LoadsFrom]
      rcases hout with ho | ho <;> rw [ho, hn s c hm]
      · exact ⟨List.nil_sublist _, fun _ => rfl⟩
      · exact ⟨hl, fun h => hz h⟩
    | true =>
      simp only [hm, if_true] at hc ⊢
      have hz := (ih (by omega) (f s c).1).2 (by omega)
      refine ⟨?_, fun h => by omega⟩
      rw [LoadsFrom]
      rcases hout with ho | ho <;> rw [ho]
      · exact hf s c
      · rw [hz, List.append_nil]
        exact hf s c

theorem loads_serve (s : App) (e : ServiceEvent) : loads (s.serve e).2 = [] := by
  unfold serve
  split <;> rfl

theorem loads_of_not_makes (fresh : List ScreenId) (i : ScreenId) (s : App) {c : Command}
    (h : makes c = false) : loads (perform t fresh i s c).2 = [] := by
  have hd : Deeds (fun _ r => loads r.2 = []) t [] fun _ c => makes c = false :=
    { closed := {
        refl := fun _ => rfl
        trans := fun hr hr' => by rw [loads_append, hr, hr']; rfl }
      loads := fun j hj => absurd hj List.not_mem_nil
      deed := by
        intro s r hd
        cases hd with
        | call => exact loads_serve s _
        | push h => cases h
        | present h => cases h
        | _ => rfl }
  exact hd.perform_of_not_makes fresh (i := i) s h h

theorem viewDidLoad_makes (k : Kind) (didLogin : Bool) :
    (Kind.viewDidLoad didLogin k).countP makes ≤ 1 := by
  cases k <;> cases didLogin <;> decide

theorem loadsFrom_perform (fresh : List ScreenId) (i : ScreenId) (s : App) (c : Command) :
    LoadsFrom fresh (perform t fresh i s c) := by
  have hload : ∀ j fresh, (∀ s c, LoadsFrom fresh (perform t fresh j s c)) →
      ∀ k (s' : App) (didLogin : Bool), LoadsFrom (j :: fresh)
        (andThen (s'.appear k j) fun s'' =>
          runAll (perform t fresh j) s'' (Kind.viewDidLoad didLogin k)) := by
    intro j fresh ih k s' didLogin
    have hr := (loadsFrom_runAll ih (fun s c hn => loads_of_not_makes fresh j s hn)
      (viewDidLoad_makes k didLogin) (s'.appear k j).1).1
    unfold andThen Sequence.andThen
    split
    · exact List.singleton_sublist.mpr List.mem_cons_self
    · exact hr.cons_cons j
  exact perform_induct (motive := fun fresh _ _ _ r => LoadsFrom fresh r)
    (fun _ _ _ _ _ => loadsFrom_nil rfl)
    (fun fresh i s _ hm => loadsFrom_nil (loads_of_not_makes fresh i s hm))
    (fun j fresh _ _ k _ ih => hload j fresh ih k _ _)
    (fun j fresh _ _ ih => hload j fresh ih .forgotPassword _ _) fresh i s c

theorem loadsFrom_performAll {fresh : List ScreenId} {i : ScreenId} (s : App)
    {cs : List Command} (hc : cs.countP makes ≤ 1) :
    LoadsFrom fresh (runAll (perform t fresh i) s cs) :=
  (loadsFrom_runAll (loadsFrom_perform fresh i)
    (fun s _ hn => loads_of_not_makes fresh i s hn) hc s).1

theorem receive_makes {sc : Screen} {user : Option Profile} {m : Message} {cs : List Command}
    (h : sc.receive user m = some cs) : cs.countP makes ≤ 1 := by
  cases Screen.received h <;> simp [makes, List.countP_cons]

theorem touched_makes {sc : Screen} {touch : Touch} {cs : List Command}
    (h : sc.touched touch = some cs) : cs.countP makes ≤ 1 := by
  cases Screen.touched_cases h <;> simp [makes]

theorem deferred_makes (k : Kind) : k.deferred.countP makes ≤ 1 := by
  cases k <;> decide

theorem loadsFrom_deliver (fresh : List ScreenId) (s : App) (m : Message) :
    LoadsFrom fresh (deliver t fresh s m) := by
  unfold deliver
  cases s.listening m with
  | none => exact loadsFrom_nil rfl
  | some x =>
    obtain ⟨i, sc⟩ := x
    cases hc : sc.receive s.service.newUser m with
    | none =>
      simp only [hc]
      exact loadsFrom_nil rfl
    | some cs =>
      simp only [hc]
      exact loadsFrom_performAll s (receive_makes hc)

theorem loadsFrom_settle_serve {fresh : List ScreenId} {s : App} {e : ServiceEvent} {r : Done}
    (hs : s.raised = none) (hr : s.service.step e = some r) :
    LoadsFrom fresh (settle t fresh (s.serve e)) := by
  cases hm : s.service.announced e with
  | none => rw [settle_serve_of_none hm]; exact loadsFrom_nil (loads_serve s e)
  | some m =>
    rw [settle_serve_of_some hs hr hm]
    exact loadsFrom_deliver fresh _ m

theorem loads_tell (fresh : List ScreenId) (s : App) (v : Uid) (o : Nat) :
    loads (tell t fresh v s o).2 = [] := by
  cases hr : s.service.step (.childAdded o v) with
  | none => simp [tell, serve, hr, settle, andThen, runAll]
  | some r =>
    cases hs : s.raised with
    | none =>
      cases hm : s.service.announced (.childAdded o v) with
      | none => rw [tell, settle_serve_of_none hm]; exact loads_serve s _
      | some m =>
        obtain ⟨d, -, rfl⟩ := Option.map_eq_some_iff.mp hm
        rw [tell, settle_serve_of_some hs hr hm, deliver_successProfile]
        split <;> rfl
    | some x =>
      simp [tell, serve_of_step hr, settle, andThen, Sequence.andThen, crashed, hs, loads,
        Output.load]

theorem loadsFrom_step {s : App} {e : Event} {r : Outcome} (h : s.step e = some r) :
    LoadsFrom [e.fresh, e.fresh'] r := by
  obtain ⟨hn, hs, -, hd⟩ := step_taken h
  cases hd with
  | launch ha hst =>
    have hr : LoadsFrom [e.fresh'] (runAll (perform e.stringTime [e.fresh'] e.fresh)
        ({ s.reserve e with stack := [e.fresh] }.appear .menu e.fresh).1
        (Kind.viewDidLoad s.service.didLogin .menu)) :=
      loadsFrom_performAll _ (viewDidLoad_makes .menu s.service.didLogin)
    unfold andThen Sequence.andThen
    split
    · exact List.singleton_sublist.mpr List.mem_cons_self
    · exact hr.cons_cons e.fresh
  | @touch i touch sc cs ha hi hsc hcs =>
    rcases settle_touched (s := s.reserve e) hs hcs e.stringTime [e.fresh, e.fresh'] i with
      ⟨keychain, rfl, hstep, he⟩ | ⟨-, -, he⟩
    · rw [he]
      exact loadsFrom_settle_serve (s := s.reserve e) hn hstep
    · rw [he]
      exact loadsFrom_performAll _ (touched_makes hcs)
  | pop | release => exact loadsFrom_nil rfl
  | timer => exact loadsFrom_performAll _ (deferred_makes _)
  | silent => exact loadsFrom_nil (loads_serve _ _)
  | report ha hr => exact loadsFrom_settle_serve (s := s.reserve e) hn hr
  | childAdded =>
    have hc : Sequence.Closed fun (_ : App) (r : Outcome) => loads r.2 = [] :=
      { refl := fun _ => rfl, trans := fun hr hr' => by rw [loads_append, hr, hr']; rfl }
    exact loadsFrom_nil (hc.runAll (fun s o _ => loads_tell _ s _ o) (s.reserve e))

theorem not_mem_used_of_loads {m : AppMove} (hm : machine.Fires m) {x : ScreenId × Kind}
    (hx : x ∈ loads m.out) : x.1 ∉ m.before.used :=
  not_mem_used_of_fresh hm ((loadsFrom_step hm).subset (List.mem_map_of_mem hx))

end App

end Mioto
