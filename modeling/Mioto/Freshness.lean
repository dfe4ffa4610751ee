import Mioto.ServiceFrame

/-! When the cached profile is what the server holds: its last assignment was a
fetch for the account in question, and the fields of interest have not changed. -/

namespace Mioto

/-- What the cache holds was fetched for `u`, and `Users/u` has since kept the
fields in `keep`. Histories list the latest move first. -/
inductive Fresh (keep : Key → Bool) (u : Uid) : ServiceHistory → Prop
  | fetched {h : ServiceHistory} {m : ServiceMove} {d : Dict} :
      m.before.fetches m.event = some (u, d) →
      (∀ k, keep k → (m.after.users u).field k = d k) → Fresh keep u (m :: h)
  | kept {h : ServiceHistory} {m : ServiceMove} :
      Fresh keep u h → m.before.fetches m.event = none → m.before.reports m.event = none →
      (∀ k, keep k → (m.after.users u).field k = (m.before.users u).field k) →
      Fresh keep u (m :: h)

theorem Fresh.agrees {keep : Key → Bool} {u : Uid} {s₀ s : Service} {h : ServiceHistory}
    (hr : Service.machine.Run s₀ h s) (hf : Fresh keep u h) :
    ∃ p, s.newUser = some p ∧ ∀ k, keep k → p.property k = (s.users u).field k := by
  induction hr with
  | nil => cases hf
  | @cons h m _ hm ih =>
    cases hf with
    | @fetched _ _ d hx hk =>
      -- a fetch copies what the server holds at that moment
      refine ⟨transformUser d, Service.newUser_of_fetches hm hx, fun k hc => ?_⟩
      rw [property_transformUser, hk k hc]
    | kept hf hx hn hk =>
      obtain ⟨p, hp, hc⟩ := ih hf
      exact ⟨p, by rw [Service.newUser_of_none hm hx hn, hp],
        fun k hkc => by rw [hc k hkc, hk k hkc]⟩

end Mioto
