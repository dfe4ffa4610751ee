import Mioto.Delivery
import Mioto.Freshness

/-! Whose email address `emailLinking:` links. The Profile screen has fetched the
record of its user, but the call reads the cache, and the friends list fills the
cache with the profiles of others. -/

namespace Mioto

namespace App

def OwnFetchCompleted (i : ScreenId) (u : Uid) (h : AppHistory) : Prop :=
  ∃ m ∈ serviceHistory h, ∃ k t d, m.event = .complete k t ∧
    m.before.replies[k]? = some ⟨.fetched u (.dict d), i⟩

/-- `m` is a tap that links a password to the account of `u`, on a Profile screen
whose own fetch for `u` has completed. -/
def LinksEmail (older : AppHistory) (m : AppMove) (i : ScreenId) (u : Uid) (password : String) :
    Prop :=
  m.event.act = .touch i (.ggLinking password) ∧ utf16Length password ≠ 0 ∧
    m.before.service.currentUser = some u ∧ OwnFetchCompleted i u older

def LinksOwnEmail (h : AppHistory) : Prop :=
  ∀ newer m older i u password, h = newer ++ m :: older → LinksEmail older m i u password →
    ∀ email pass, .linkEmail u email pass ∈ effects m.out →
      email = (m.before.service.users u).field .mUserEmail

/-- At every such tap the cache has the email address that `Users/u` holds. -/
def EmailAgrees (h : AppHistory) : Prop :=
  ∀ newer m older i u password, h = newer ++ m :: older → LinksEmail older m i u password →
    m.before.service.newUser.bind Profile.mUserEmail =
      (m.before.service.users u).field .mUserEmail

/-- At every such tap the cache was last assigned by a fetch for `u`, and the email
address in `Users/u` has not been changed since. -/
def EmailFresh (h : AppHistory) : Prop :=
  ∀ newer m older i u password, h = newer ++ m :: older → LinksEmail older m i u password →
    Fresh (· == .mUserEmail) u (serviceHistory older)

theorem effects_ggLinking {s s' : App} {e : Event} {o : List Output}
    (h : s.step e = some (s', o)) {i : ScreenId} {u : Uid} {password : String}
    (he : e.act = .touch i (.ggLinking password)) (hp : utf16Length password ≠ 0)
    (hu : s.service.currentUser = some u) :
    effects o = [.linkEmail u (s.service.newUser.bind Profile.mUserEmail) password] := by
  have ht := step_taken h
  obtain ⟨sc, cs, -, hcs, hout⟩ := ht.touch_of_ne he (by simp)
  have hcs : cs = [.log "password %@" password, .call (.emailLinking password)] := by
    cases Screen.touched_cases hcs with
    | ggLinking => rfl
    | ggLinkingEmpty _ hn => exact absurd hn hp
  have hgo : (s.reserve e).crashed = false := ht.running
  rw [hcs, runAll_cons_of_go (by rw [perform_log]; exact hgo), runAll, Sequence.runAll_singleton,
    perform_log, perform_call, serve_call hgo] at hout
  obtain ⟨-, rfl⟩ := Prod.mk.inj hout
  simp [effects, serviceMoves, reserve, Service.call, Service.emailLinking, hu]

/-- In every run of the app the taps link the own email address exactly when the
cache has it, and it does when the cache was last filled by a fetch for the user. -/
theorem links_own_email {s₀ s : App} {h : AppHistory} (hr : machine.Run s₀ h s) :
    (LinksOwnEmail h ↔ EmailAgrees h) ∧ (EmailFresh h → LinksOwnEmail h) := by
  have hout : ∀ newer m older i u password, h = newer ++ m :: older →
      LinksEmail older m i u password → effects m.out =
        [.linkEmail u (m.before.service.newUser.bind Profile.mUserEmail) password] := by
    rintro newer m older i u password rfl ⟨he, hp, hu, -⟩
    exact effects_ggLinking (hr.fires m (by simp)) he hp hu
  have hiff : LinksOwnEmail h ↔ EmailAgrees h := by
    constructor
    · intro hl newer m older i u password he hm
      exact hl newer m older i u password he hm _ password
        (by rw [hout newer m older i u password he hm]; exact List.mem_singleton.mpr rfl)
    · intro ha newer m older i u password he hm email pass hmem
      rw [hout newer m older i u password he hm, List.mem_singleton] at hmem
      obtain ⟨-, rfl, -⟩ := Effect.linkEmail.inj hmem
      exact ha newer m older i u password he hm
  refine ⟨hiff, fun hf => hiff.mpr ?_⟩
  intro newer m older i u password he hm
  obtain ⟨p, hp, hk⟩ := (hf newer m older i u password he hm).agrees
    (serviceHistory_run (hr.before he))
  rw [hp, Option.bind_some]
  exact hk .mUserEmail rfl

def signInAndFetch : List Act :=
  [.launch, .touch 0 .menuSigninButton, .touch 2 (.typed .email "u@mail.com"),
    .touch 2 (.typed .password "secret"), .touch 2 .signinButton, .answer 0 (.signedIn (some "u")),
    .complete 0, .answer 0 (.fetched "u" (.dict (Service.signupRecord "u"))), .complete 0]

def linkAfter (visit : List Act) : List Event :=
  script 0 (signInAndFetch ++ visit ++ [.touch 12 (.ggLinking "secret")])

def registered : App := start (Service.launch none ["u", "v"])

def Act.isGgLinking : Act → Bool
  | .touch _ (.ggLinking _) => true
  | _ => false

theorem link_after_fetch_is_own :
    LinksOwnEmail ((machine.exec [] registered (linkAfter [])).get (by decide)).1 := by
  refine (links_own_email (Machine.exec_run _)).1.mpr ?_
  generalize hh : ((machine.exec [] registered (linkAfter [])).get (by decide)).1 = h
  have hlast : ∀ m ∈ h.head?, m.before.service.currentUser = some "u" ∧
      m.before.service.newUser.bind Profile.mUserEmail =
        (m.before.service.users "u").field .mUserEmail := by
    rw [← hh]
    decide
  have hrest : ∀ m ∈ h.tail, Act.isGgLinking m.event.act = false := by
    rw [← hh]
    decide
  rintro (_ | ⟨m', newer⟩) m older i u password rfl ⟨ha, -, hu, -⟩
  · obtain ⟨hu', he⟩ := hlast m rfl
    obtain rfl : "u" = u := Option.some.inj (hu'.symm.trans hu)
    exact he
  · have hn := hrest m (by simp)
    simp [ha, Act.isGgLinking] at hn

def visitFriends : List Act :=
  [.touch 12 .toggleSearch, .childAdded "u", .childAdded "v", .pop]

theorem link_after_friends_is_not_own : ¬ ∀ s₀ h s, Launch s₀ → machine.Run s₀ h s →
    LinksOwnEmail h := by
  intro hall
  let r := (machine.exec [] registered (linkAfter visitFriends)).get (by decide)
  have hr : machine.Run _ r.1 r.2 := Machine.exec_run _
  have hl := hall _ _ _ (start_launch none ["u", "v"]) hr [] (r.1.head (by decide)) r.1.tail 12
    "u" "secret" (List.cons_head_tail _).symm
    ⟨rfl, by decide, rfl, (serviceHistory r.1.tail).get ⟨3, by decide⟩, List.get_mem _ _, 0,
      "today", _, rfl, rfl⟩
    (some "v@mail.com") "secret" (by decide)
  exact absurd hl (by decide)

end App

end Mioto
