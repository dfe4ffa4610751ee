import Mioto.Operations
import Mioto.ServiceSteps

/-! Whether the screens hear of their own operations. A screen on the navigation stack
should have had one callback for each of its operations that is over, and no other. -/

namespace Mioto

/-- How many callbacks meant for `x.1` the screen `x.2` has received. -/
def received (h : AppHistory) (x : Ticket) : Nat :=
  (h.flatMap fun m => deliveries m.out).countP fun d => d.1 = x.2 ∧ d.2.method = some x.1

/-- The screen whose call has nobody to act for when nobody is signed in. -/
def ServiceEvent.needsUser : ServiceEvent → Option ScreenId
  | .call i _ .fetchData => some i
  | .call i _ (.emailLinking _) => some i
  | _ => none

namespace App

/-- Each screen on the stack has received one callback of the right kind for each
operation it has issued, those still under way apart. -/
def CallbacksMatch (h : AppHistory) (s : App) : Prop :=
  ∀ x : Ticket, x.2 ∈ s.stack →
    received h x + s.service.underWay (· == x) = Service.issued (serviceHistory h) (· == x)

/-- The listener of `AccountBusiness`, unless it has been released. -/
def liveListener (s : App) : Option ScreenId :=
  s.fireBaseListener.filter fun i => (s.screens i).isSome

/-- What an event has to be like. No screen on the stack fetches or links by email while
nobody is signed in, and no request of one is refused for want of a Facebook token. A step
that ends an operation of a screen on the stack ends it in a branch with a callback of its
own and finds that screen listening; one that ends an operation of a screen that has left
tells no screen on the stack. -/
structure ReportsToIssuer (m : AppMove) : Prop where
  asked : ∀ sm ∈ serviceMoves m.out, ∀ i ∈ sm.event.needsUser, i ∈ m.after.stack →
    sm.before.currentUser ≠ none
  answered : ∀ se ∈ m.event.act.silent, ∀ x ∈ m.before.service.ends se, x.2 ∉ m.before.stack
  onStack : ∀ se ∈ m.event.act.report m.event.stringTime, ∀ x ∈ m.before.service.ends se,
    x.2 ∈ m.before.stack → m.before.service.reportsOwn se ∧ m.before.liveListener = some x.2
  offStack : ∀ se ∈ m.event.act.report m.event.stringTime, ∀ x ∈ m.before.service.ends se,
    x.2 ∉ m.before.stack → m.before.service.announced se = none ∨
      ∀ j ∈ m.before.stack, m.before.liveListener ≠ some j

instance (m : AppMove) : Decidable (ReportsToIssuer m) :=
  decidable_of_iff
    ((∀ sm ∈ serviceMoves m.out, ∀ i ∈ sm.event.needsUser, i ∈ m.after.stack →
        sm.before.currentUser ≠ none) ∧
      (∀ se ∈ m.event.act.silent, ∀ x ∈ m.before.service.ends se, x.2 ∉ m.before.stack) ∧
      (∀ se ∈ m.event.act.report m.event.stringTime, ∀ x ∈ m.before.service.ends se,
        x.2 ∈ m.before.stack →
          m.before.service.reportsOwn se ∧ m.before.liveListener = some x.2) ∧
      ∀ se ∈ m.event.act.report m.event.stringTime, ∀ x ∈ m.before.service.ends se,
        x.2 ∉ m.before.stack → m.before.service.announced se = none ∨
          ∀ j ∈ m.before.stack, m.before.liveListener ≠ some j)
    ⟨fun ⟨h, h', h₁, h₂⟩ => ⟨h, h', h₁, h₂⟩,
      fun h => ⟨h.asked, h.answered, h.onStack, h.offStack⟩⟩

/-! ### One event -/

def callbacksIn (m : AppMove) (x : Ticket) : Nat :=
  (deliveries m.out).countP fun d => d.1 = x.2 ∧ d.2.method = some x.1

def endedIn (m : AppMove) (x : Ticket) : Nat := Service.ended (serviceMoves m.out) (· == x)

def MoveMatches (m : AppMove) : Prop :=
  ∀ x : Ticket, x.2 ∈ m.after.stack → callbacksIn m x = endedIn m x

theorem receiver_of_method {s : App} {m : Message} {o : Method}
    (h : m.method = some o) : s.receiver m = s.liveListener.map fun i => (i, m) := by
  have hl : s.listener m = s.fireBaseListener := by
    cases m <;> first | rfl | cases h
  simp only [receiver, listening, hl, liveListener]
  cases s.fireBaseListener with
  | none => rfl
  | some i => cases hi : s.screens i <;> simp [Option.filter, hi]

/-- The screen `x.2` hears of the step `se` as of an operation `x.1`. -/
def Hears (s : App) (se : ServiceEvent) (x : Ticket) : Prop :=
  ∃ m, s.service.announced se = some m ∧ m.method = some x.1 ∧ s.liveListener = some x.2

theorem callbacksIn_of_report {m : AppMove} (hm : machine.Fires m) {se : ServiceEvent}
    (hr : m.event.act.report m.event.stringTime = some se) (x : Ticket) :
    (Hears m.before se x → callbacksIn m x = 1) ∧
      (¬ Hears m.before se x → callbacksIn m x = 0) := by
  have hv : ∀ v, m.event.act ≠ .childAdded v := by
    intro v hv
    rw [hv] at hr
    cases hr
  have hd := deliveries_step (s := m.before) hm hv
  rw [reporting_of_report hr, Option.bind_some] at hd
  rw [callbacksIn, hd]
  constructor
  · rintro ⟨msg, ha, ho, hl⟩
    simp [ha, receiver_of_method ho, hl, ho]
  · intro hn
    rw [List.countP_eq_zero]
    intro d hmem
    obtain ⟨msg, ha, hrec⟩ := Option.bind_eq_some_iff.mp (Option.mem_toList.mp hmem)
    have hdm : d.2 = msg := by
      obtain ⟨y, -, rfl⟩ := Option.map_eq_some_iff.mp hrec
      rfl
    simp only [decide_eq_true_eq, not_and]
    intro hi ho
    rw [hdm] at ho
    rw [receiver_of_method ho] at hrec
    obtain ⟨j, hj, rfl⟩ := Option.map_eq_some_iff.mp hrec
    exact hn ⟨msg, ha, ho, by rw [hj, ← hi]⟩

theorem callbacksIn_of_not_report {m : AppMove} (hm : machine.Fires m)
    (hr : m.event.act.report m.event.stringTime = none) (x : Ticket) : callbacksIn m x = 0 := by
  rw [callbacksIn, List.countP_eq_zero]
  intro d hmem
  simp only [decide_eq_true_eq, not_and]
  intro _ ho
  by_cases hv : ∃ v, m.event.act = .childAdded v
  · obtain ⟨v, hv⟩ := hv
    have he := (fires_taken hm).childAdded hv
    rw [show m.out = _ from congrArg Prod.snd he] at hmem
    obtain ⟨p, hp⟩ := mem_deliveries_childAdded hmem
    rw [hp] at ho
    cases ho
  · rw [not_exists] at hv
    rw [deliveries_step (s := m.before) hm hv, Option.mem_toList] at hmem
    obtain ⟨se, hse, hmem⟩ := Option.bind_eq_some_iff.mp hmem
    obtain ⟨msg, ha, hrec⟩ := Option.bind_eq_some_iff.mp hmem
    obtain ⟨y, -, rfl⟩ := Option.map_eq_some_iff.mp hrec
    rcases reporting_eq_some hse with ⟨i, keychain, -, rfl⟩ | ⟨k, hact, -⟩ | ⟨k, q, hact, -⟩
    · cases ha
      cases ho
    · rw [hact] at hr
      cases hr
    · rw [hact] at hr
      cases hr

theorem mem_used_of_liveListener {s : App} (ha : Addressed (· ∈ s.used) s) {i : ScreenId}
    (h : s.liveListener = some i) : i ∈ s.used := by
  obtain ⟨-, hi⟩ := Option.filter_eq_some_iff.mp h
  exact ha.screens i hi

theorem ended_pos {h : ServiceHistory} {sm : ServiceMove} (hsm : sm ∈ h) {x : Ticket}
    (hx : sm.before.ends sm.event = some x) : Service.ended h (· == x) ≠ 0 := by
  intro hz
  have hh := List.countP_eq_zero.mp hz sm hsm
  simp [hx] at hh

theorem any_beq {o : Option Ticket} {x : Ticket} (h : o.any (· == x)) : o = some x := by
  cases o with
  | none => cases h
  | some y => rw [eq_of_beq h]

theorem ended_eq_zero {h : ServiceHistory} {x : Ticket}
    (hx : ∀ sm ∈ h, sm.before.ends sm.event ≠ some x) : Service.ended h (· == x) = 0 :=
  List.countP_eq_zero.mpr fun sm hsm hh => hx sm hsm (any_beq hh)

/-- A call made while hearing of something ends nothing for the screen that hears. -/
theorem ends_ne_of_callsBack {fresh : List ScreenId} {s : App} {sv : Service} {t : String}
    {j : ScreenId} {c : Call} {x : Ticket} (hc : CallsBack fresh s j c) (hx : x.2 ∉ fresh) :
    sv.ends (.call j t c) ≠ some x := by
  intro he
  obtain ⟨-, ⟨rfl, rfl⟩ | ⟨p, rfl, rfl⟩⟩ := Service.ends_call.mp he
  · cases hc with
    | loads hj => exact hx hj
  · cases hc with
    | loads hj => exact hx hj

theorem ends_ne_of_asked {m : AppMove} (h : ReportsToIssuer m) {sm : ServiceMove}
    (hsm : sm ∈ serviceMoves m.out) {j : ScreenId} {t : String} {c : Call}
    (he : sm.event = .call j t c) {x : Ticket} (hx : x.2 ∈ m.after.stack) :
    sm.before.ends sm.event ≠ some x := by
  intro hends
  rw [he] at hends
  obtain ⟨hu, hc⟩ := Service.ends_call.mp hends
  rcases hc with ⟨rfl, rfl⟩ | ⟨p, rfl, rfl⟩ <;> exact h.asked sm hsm j (by rw [he]; rfl) hx hu

/-- A step that ends an operation without a call works on one that was under way. -/
theorem underWay_of_ends {sv : Service} {se : ServiceEvent} {rr : Done} {x : Ticket}
    (hi : Service.issues se = none) (hstep : sv.step se = some rr)
    (hx : sv.ends se = some x) : sv.underWay (· == x) ≠ 0 := by
  have hc := Service.step_underWay hstep (· == x)
  simp only [hx, hi, Service.tally, Option.any_some, beq_self_eq_true, if_true, Option.any_none,
    Bool.false_eq_true, if_false] at hc
  omega

theorem issues_of_report {a : Act} {t : String} {se : ServiceEvent} (h : a.report t = some se) :
    Service.issues se = none := by
  rcases Act.report_eq_some h with ⟨k, -, rfl⟩ | ⟨k, q, -, rfl⟩ <;> rfl

theorem silent_report {a : Act} {se : ServiceEvent} (h : a.silent = some se) (t : String) :
    a.report t = none := by
  rcases Act.silent_eq_some h with ⟨k, q, rfl, -⟩ | ⟨u, d, rfl, -⟩ | ⟨u, k, v, rfl, -⟩ <;> rfl

/-- The step behind a silent act is all that the act does. -/
theorem silent_spec {m : AppMove} (hm : machine.Fires m) {se : ServiceEvent}
    (hs : m.event.act.silent = some se) :
    ∃ rr, m.before.service.step se = some rr ∧ m.after.stack = m.before.stack ∧
      serviceMoves m.out = [⟨m.before.service, se, rr.1, rr.2⟩] := by
  obtain ⟨rr, hstep, he⟩ := (fires_taken hm).silent hs
  rw [serve_of_step (s := m.before.reserve m.event) hstep] at he
  refine ⟨rr, hstep, ?_, ?_⟩
  · rw [show m.after = _ from congrArg Prod.fst he]
    rfl
  · rw [show m.out = _ from congrArg Prod.snd he]
    rfl

theorem moveMatches_of_reports {m : AppMove} (hm : machine.Fires m)
    (ha : Addressed (· ∈ m.before.used) m.before)
    (hw : ∀ x : Ticket, m.before.service.underWay (· == x) ≠ 0 → x.2 ∈ m.before.used)
    (h : ReportsToIssuer m) : MoveMatches m := by
  intro x hx
  cases hr : m.event.act.report m.event.stringTime with
  | none =>
    rw [callbacksIn_of_not_report hm hr, endedIn, ended_eq_zero]
    intro sm hsm
    generalize hev : sm.event = ev
    have hask := asked_of_step (s := m.before) hm hr sm hsm
    rw [hev] at hask
    cases hask with
    | button => exact hev ▸ ends_ne_of_asked h hsm hev hx
    | callsBack => exact hev ▸ ends_ne_of_asked h hsm hev hx
    | silent hs =>
      intro hends
      obtain ⟨rr, -, hst, hmoves⟩ := silent_spec hm hs
      obtain rfl := List.mem_singleton.mp (hmoves ▸ hsm)
      exact h.answered ev hs x hends (hst ▸ hx)
    | tells => exact fun he => by cases he
  | some se =>
    obtain ⟨rr, rest, hstep, hmoves, hrest⟩ := report_of_step (s := m.before) hm hr
    have hzero : Service.ended rest (· == x) = 0 := by
      refine ended_eq_zero fun sm hsm => ?_
      obtain ⟨j, c, he, -⟩ := hrest sm hsm
      have hmem : sm ∈ serviceMoves m.out := hmoves ▸ List.mem_cons_of_mem _ hsm
      exact ends_ne_of_asked h hmem he hx
    have hended : endedIn m x =
        if (m.before.service.ends se).any (· == x) then 1 else 0 := by
      rw [endedIn, show serviceMoves m.out = _ from hmoves]
      simp only [Service.ended, List.countP_cons] at hzero ⊢
      omega
    have hcb := callbacksIn_of_report hm hr x
    have hon := h.onStack se hr
    have hoff := h.offStack se hr
    -- a screen that is known was on the stack before
    have hold : x.2 ∈ m.before.used → x.2 ∈ m.before.stack := fun hu =>
      (stackFrom_step (s := m.before) hm x.2 hx).resolve_right
        fun hf => not_mem_used_of_fresh hm hf hu
    cases hy : m.before.service.ends se with
    | none =>
      have hn : ¬ Hears m.before se x := by
        rintro ⟨msg, han, ho, -⟩
        obtain ⟨y, hy'⟩ := Service.ends_of_announced han ho
        rw [hy] at hy'
        cases hy'
      rw [hcb.2 hn, hended, hy]
      rfl
    | some y =>
      by_cases hyx : y = x
      · subst hyx
        have hu : y.2 ∈ m.before.used := hw y (underWay_of_ends (issues_of_report hr) hstep hy)
        obtain ⟨hown, hl⟩ := hon y hy (hold hu)
        obtain ⟨msg, han, ho⟩ := (Service.announced_iff_reportsOwn hy).mpr hown
        rw [hcb.1 ⟨msg, han, ho, hl⟩, hended, hy]
        simp
      · have hn : ¬ Hears m.before se x := by
          rintro ⟨msg, han, ho, hl⟩
          by_cases hst : y.2 ∈ m.before.stack
          · obtain ⟨hown, hl'⟩ := hon y hy hst
            obtain ⟨msg', han', ho'⟩ := (Service.announced_iff_reportsOwn hy).mpr hown
            obtain rfl := Option.some.inj (han.symm.trans han')
            have h1 : x.1 = y.1 := Option.some.inj (ho.symm.trans ho')
            have h2 : x.2 = y.2 := Option.some.inj (hl.symm.trans hl')
            exact hyx (Prod.ext h1 h2).symm
          · rcases hoff y hy hst with hnone | hj
            · rw [han] at hnone
              cases hnone
            · exact hj x.2 (hold (mem_used_of_liveListener ha hl)) hl
        rw [hcb.2 hn, hended, hy]
        simp [hyx]

theorem hears_of_ended {m : AppMove} (hm : machine.Fires m) {x : Ticket}
    (h : callbacksIn m x = endedIn m x) {sm : ServiceMove} (hsm : sm ∈ serviceMoves m.out)
    (hx : sm.before.ends sm.event = some x) :
    ∃ se, m.event.act.report m.event.stringTime = some se ∧ Hears m.before se x := by
  have hpos : callbacksIn m x ≠ 0 := h ▸ ended_pos hsm hx
  cases hr : m.event.act.report m.event.stringTime with
  | none => exact absurd (callbacksIn_of_not_report hm hr x) hpos
  | some se =>
    refine ⟨se, rfl, ?_⟩
    by_contra hn
    exact hpos ((callbacksIn_of_report hm hr x).2 hn)

theorem ends_of_needsUser {sv : Service} {e : ServiceEvent} {i : ScreenId}
    (h : i ∈ e.needsUser) (hu : sv.currentUser = none) :
    ∃ t c, e = .call i t c ∧ ∃ o, sv.ends e = some (o, i) := by
  unfold ServiceEvent.needsUser at h
  split at h <;> cases h
  · exact ⟨_, _, rfl, _, Service.ends_call.mpr ⟨hu, .inl ⟨rfl, rfl⟩⟩⟩
  · exact ⟨_, _, rfl, _, Service.ends_call.mpr ⟨hu, .inr ⟨_, rfl, rfl⟩⟩⟩

theorem reports_of_moveMatches {m : AppMove} (hm : machine.Fires m)
    (ha : Addressed (· ∈ m.before.used) m.before) (h : MoveMatches m) : ReportsToIssuer m := by
  -- whoever hears of an event has an address of its own, and calls nothing that ends at once
  have hcalls : ∀ se x, m.event.act.report m.event.stringTime = some se →
      m.before.liveListener = some x.2 → ∀ sm ∈ serviceMoves m.out,
      sm.before.ends sm.event = some x → m.before.service.ends se = some x := by
    intro se x hr hl sm hsm hx
    obtain ⟨rr, rest, -, hmoves, hrest⟩ := report_of_step (s := m.before) hm hr
    rw [show serviceMoves m.out = _ from hmoves] at hsm
    rcases List.mem_cons.mp hsm with rfl | hsm
    · exact hx
    · obtain ⟨j, c, he, hc⟩ := hrest sm hsm
      rw [he] at hx
      refine absurd hx (ends_ne_of_callsBack hc fun hf => ?_)
      exact not_mem_used_of_fresh hm hf (mem_used_of_liveListener ha hl)
  have hfirst : ∀ se, m.event.act.report m.event.stringTime = some se →
      ∃ sm ∈ serviceMoves m.out, sm.before = m.before.service ∧ sm.event = se := by
    intro se hr
    obtain ⟨rr, rest, -, hmoves, -⟩ := report_of_step (s := m.before) hm hr
    exact ⟨_, hmoves ▸ List.mem_cons_self, rfl, rfl⟩
  refine ⟨?_, ?_, ?_, ?_⟩
  · intro sm hsm i hc hi hu
    obtain ⟨t, c, he, o, hx⟩ := ends_of_needsUser hc hu
    obtain ⟨se, hr, msg, han, ho, hl⟩ := hears_of_ended hm (h (o, i) hi) hsm hx
    obtain ⟨rr, rest, -, hmoves, hrest⟩ := report_of_step (s := m.before) hm hr
    rw [show serviceMoves m.out = _ from hmoves] at hsm
    rcases List.mem_cons.mp hsm with rfl | hsm
    · rcases Act.report_eq_some hr with ⟨k, -, rfl⟩ | ⟨k, q, -, rfl⟩ <;> cases he
    · obtain ⟨j, c', he', hc'⟩ := hrest sm hsm
      rw [he'] at hx
      refine ends_ne_of_callsBack hc' (fun hf => ?_) hx
      exact not_mem_used_of_fresh hm hf (mem_used_of_liveListener ha hl)
  · intro se hs x hx hst
    obtain ⟨rr, -, hstack, hmoves⟩ := silent_spec hm hs
    have hmem : ⟨m.before.service, se, rr.1, rr.2⟩ ∈ serviceMoves m.out := by simp [hmoves]
    have hcb := h x (hstack ▸ hst)
    rw [callbacksIn_of_not_report hm (silent_report hs _) x] at hcb
    exact ended_pos hmem hx hcb.symm
  · intro se hr x hx hst
    obtain ⟨sm, hsm, hb, he⟩ := hfirst se hr
    obtain ⟨se', hr', msg, han, ho, hl⟩ := hears_of_ended hm
      (h x (stackKept_report (s := m.before) hm hr x.2 hst)) hsm (by rw [hb, he, hx])
    obtain rfl := Option.some.inj (hr.symm.trans hr')
    exact ⟨(Service.announced_iff_reportsOwn hx).mp ⟨msg, han, ho⟩, hl⟩
  · intro se hr x hx hst
    by_contra hn
    rw [not_or] at hn
    obtain ⟨hann, hj⟩ := hn
    push Not at hj
    obtain ⟨j, hjst, hl⟩ := hj
    obtain ⟨msg, han⟩ := Option.ne_none_iff_exists'.mp hann
    obtain ⟨o, ho⟩ := Service.method_of_ends hx han
    have hh : Hears m.before se (o, j) := ⟨msg, han, ho, hl⟩
    have hm1 := (callbacksIn_of_report hm hr (o, j)).1 hh
    rw [h (o, j) (stackKept_report (s := m.before) hm hr j hjst)] at hm1
    have hpos : 0 < endedIn m (o, j) := by omega
    obtain ⟨sm, hsm, hends⟩ := List.countP_pos_iff.mp hpos
    have hsame := hcalls se (o, j) hr hl sm hsm (any_beq hends)
    rw [hx] at hsame
    obtain rfl := Option.some.inj hsame
    exact hst hjst

/-! ### Whole runs -/

theorem callers_used {s₀ s : App} {h : AppHistory} (hl : Launch s₀) (hr : machine.Run s₀ h s) :
    ∀ sm ∈ serviceHistory h, ∀ i t c, sm.event = .call i t c → i ∈ s.used := by
  induction hr with
  | nil => simp [serviceHistory]
  | @cons h m hr hm ih =>
    have ha := addressed_of_run hl hr
    have hu : m.after.used = m.event.fresh :: m.event.fresh' :: m.before.used := used_step hm
    have hback : ∀ j c, CallsBack [m.event.fresh, m.event.fresh'] m.before j c →
        j ∈ m.after.used := by
      intro j c hc
      rw [hu]
      cases hc with
      | loads hj =>
        rcases List.mem_cons.mp hj with rfl | hj
        · exact List.mem_cons_self
        · obtain rfl := List.mem_singleton.mp hj
          simp
      | saves hsc =>
        have hj := ha.screens j (by simp [hsc])
        simp [hj]
    intro sm hsm i t c he
    rw [serviceHistory, List.flatMap_cons, List.mem_append, List.mem_reverse] at hsm
    rcases hsm with hsm | hsm
    · cases hrep : m.event.act.report m.event.stringTime with
      | none =>
        have hask := asked_of_step (s := m.before) hm hrep sm hsm
        rw [he] at hask
        cases hask with
        | button hact hi =>
          simp only [inHierarchy, decide_eq_true_eq] at hi
          have hj := hi.elim (ha.stack i) (ha.presented i)
          simp [hu, hj]
        | callsBack hc => exact hback i c hc
        | silent hs =>
          rcases Act.silent_eq_some hs with ⟨_, _, -, hs⟩ | ⟨_, _, -, hs⟩ | ⟨_, _, _, -, hs⟩ <;>
            cases hs
      | some se =>
        obtain ⟨rr, rest, -, hmoves, hrest⟩ := report_of_step (s := m.before) hm hrep
        rw [show serviceMoves m.out = _ from hmoves] at hsm
        rcases List.mem_cons.mp hsm with rfl | hsm
        · rcases Act.report_eq_some hrep with ⟨k, -, rfl⟩ | ⟨k, q, -, rfl⟩ <;> cases he
        · obtain ⟨j, c', he', hc⟩ := hrest sm hsm
          rw [he] at he'
          cases he'
          exact hback i c hc
    · have hi := ih sm hsm i t c he
      simp [hu, hi]

theorem counts_of_not_used {s₀ s : App} {h : AppHistory} (hl : Launch s₀)
    (hr : machine.Run s₀ h s) {x : Ticket} (hx : x.2 ∉ s.used) :
    s.service.underWay (· == x) = 0 ∧ Service.ended (serviceHistory h) (· == x) = 0 := by
  have hi : Service.issued (serviceHistory h) (· == x) = 0 := by
    refine List.countP_eq_zero.mpr fun sm hsm hh => hx ?_
    have he := any_beq hh
    cases hev : sm.event with
    | call i t c =>
      rw [hev] at he
      obtain ⟨o, -, rfl⟩ := Option.map_eq_some_iff.mp he
      exact callers_used hl hr sm hsm i t c hev
    | _ =>
      rw [hev] at he
      cases he
  have hlaw := Service.underWay_of_run (serviceHistory_run hr) (· == x)
  rw [Service.underWay_launch hl.service, hi] at hlaw
  omega

theorem received_of_not_used {s₀ s : App} {h : AppHistory} (hl : Launch s₀)
    (hr : machine.Run s₀ h s) {x : Ticket} (hx : x.2 ∉ s.used) : received h x = 0 := by
  induction hr with
  | nil => rfl
  | @cons h m hr hm ih =>
    have hu : m.after.used = m.event.fresh :: m.event.fresh' :: m.before.used := used_step hm
    have hxb : x.2 ∉ m.before.used := fun hx' => hx (by simp [hu, hx'])
    have hz : callbacksIn m x = 0 := by
      cases hrep : m.event.act.report m.event.stringTime with
      | none => exact callbacksIn_of_not_report hm hrep x
      | some se =>
        refine (callbacksIn_of_report hm hrep x).2 ?_
        rintro ⟨msg, -, -, hlis⟩
        exact hxb (mem_used_of_liveListener (addressed_of_run hl hr) hlis)
    have hrec := ih hxb
    simp only [received, callbacksIn, List.flatMap_cons, List.countP_append] at hz hrec ⊢
    omega

def AlwaysMatch (h : AppHistory) : Prop := Machine.Always CallbacksMatch h

/-- What has been received is what has ended, as operations issued are under way or over. -/
theorem callbacksMatch_iff {s₀ s : App} {h : AppHistory} (hl : Launch s₀)
    (hr : machine.Run s₀ h s) : CallbacksMatch h s ↔ ∀ x : Ticket, x.2 ∈ s.stack →
      received h x = Service.ended (serviceHistory h) (· == x) := by
  refine forall_congr' fun x => imp_congr_right fun _ => ?_
  have hlaw := Service.underWay_of_run (serviceHistory_run hr) (· == x)
  rw [Service.underWay_launch hl.service] at hlaw
  omega

theorem callbacksMatch_cons {s₀ : App} {h : AppHistory} {m : AppMove} (hl : Launch s₀)
    (hr : machine.Run s₀ h m.before) (hm : machine.Fires m) (hb : CallbacksMatch h m.before) :
    CallbacksMatch (m :: h) m.after ↔ MoveMatches m := by
  rw [callbacksMatch_iff hl (hr.cons hm)]
  refine forall_congr' fun x => imp_congr_right fun hx => ?_
  have hold : received h x = Service.ended (serviceHistory h) (· == x) := by
    rcases stackFrom_step (s := m.before) hm x.2 hx with hst | hf
    · exact (callbacksMatch_iff hl hr).mp hb x hst
    · have hu := not_mem_used_of_fresh (s := m.before) hm hf
      rw [received_of_not_used hl hr hu, (counts_of_not_used hl hr hu).2]
  simp only [received, callbacksIn, endedIn, serviceHistory, Service.ended, List.flatMap_cons,
    List.countP_append, List.countP_reverse] at hold ⊢
  omega

theorem callbacksMatch_launch {s₀ : App} (hl : Launch s₀) : CallbacksMatch [] s₀ :=
  fun x hx => by simp [hl.stack] at hx

/-- In every run from a launch, the screens on the stack have at all times one callback of
its own kind for each operation of theirs that is over exactly when each step that ends
an operation reports to its issuer. -/
theorem operations_report_once_iff {s₀ s : App} {h : AppHistory} (hl : Launch s₀)
    (hr : machine.Run s₀ h s) : AlwaysMatch h ↔ ∀ m ∈ h, ReportsToIssuer m := by
  rw [← Machine.each_iff_mem]
  refine hr.always_iff (callbacksMatch_launch hl) fun older m hr hm hb => ?_
  have ha := addressed_of_run hl hr
  have hw : ∀ x : Ticket, m.before.service.underWay (· == x) ≠ 0 → x.2 ∈ m.before.used := by
    intro x hx
    by_contra hu
    exact hx (counts_of_not_used hl hr hu).1
  have hone : MoveMatches m ↔ ReportsToIssuer m :=
    ⟨reports_of_moveMatches hm ha, moveMatches_of_reports hm ha hw⟩
  exact (callbacksMatch_cons hl hr hm hb).trans hone

def linkFromProfile : List Event :=
  script 0 [.launch, .answer 0 (.fetched "u" (.dict (Service.signupRecord "u"))), .complete 0,
    .touch 1 (.ggLinking "secret"), .answer 0 (.linkedEmail "u" false), .complete 0]

theorem link_from_profile_reports_once :
    let r := (machine.exec [] (start (Service.launch (some "u") ["u"])) linkFromProfile).get
      (by decide)
    machine.Run (start (Service.launch (some "u") ["u"])) r.1 r.2 ∧ AlwaysMatch r.1 := by
  intro r
  have hr : machine.Run (start (Service.launch (some "u") ["u"])) r.1 r.2 := Machine.exec_run _
  refine ⟨hr, (operations_report_once_iff (start_launch (some "u") ["u"]) hr).mpr ?_⟩
  decide

def failedGraphLogin : List Event :=
  script 0 [.launch, .touch 0 .loginWithFB, .dialog 0 (.granted "token"),
    .answer 0 (.graphMe none), .complete 0]

theorem failed_graph_login_silent : ¬ ∀ s₀ h s, Launch s₀ → machine.Run s₀ h s →
    AlwaysMatch h := by
  intro hall
  let r := (machine.exec [] (start (Service.launch none [])) failedGraphLogin).get (by decide)
  have hr : machine.Run _ r.1 r.2 := Machine.exec_run _
  have hm := hr.of_always (callbacksMatch_launch (start_launch none []))
    (hall _ _ _ (start_launch none []) hr)
  exact absurd (hm (.loginWithFacebook, 0) (by decide)) (by decide)

end App

end Mioto
