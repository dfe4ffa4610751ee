import Mioto.Provenance
import Mioto.Screenwise

/-! What the screens show of stored records. The text of a Profile screen is set from the cache
in one go, so it never mixes two records, whatever order things happen in. -/

namespace Mioto

/-- The labels are those of the record `d`. -/
structure ProfileScreen.Shows (sc : ProfileScreen) (d : Dict) : Prop where
  username : sc.username = d .mUserName
  gender : sc.gender = d .mUserGender
  dob : sc.dob = d .mUserDateOfBirth
  joinedDate : sc.joinedDate = (d .mUserJoinedDate).map ("Ngày tham gia: " ++ ·)
  phoneStatus : sc.phoneStatus = some (d .mUserPhone != some Service.unchosen)
  emailStatus : sc.emailStatus = some (utf16Length ((d .mUserEmail).getD "") != 0)

/-- The labels are those of the nib. -/
structure ProfileScreen.Blank (sc : ProfileScreen) : Prop where
  username : sc.username = none
  gender : sc.gender = none
  dob : sc.dob = none
  joinedDate : sc.joinedDate = none
  phoneStatus : sc.phoneStatus = none
  emailStatus : sc.emailStatus = none

def FromImage (H : Uid → Dict → Prop) (url : String) : Prop :=
  ∃ u d, H u d ∧ d .mUserImgUrl = some url

/-- What a screen shows of profiles it shows of records in `H`. -/
def Screen.Sourced (H : Uid → Dict → Prop) : Screen → Prop
  | .profile sc => (sc.Blank ∨ ∃ u d, H u d ∧ sc.Shows d) ∧ ∀ url ∈ sc.profileImage, FromImage H url
  | .viewProfile sc => ∀ url, sc.prorfileImage = some (.url url) → FromImage H url
  | .friends sc => ∀ p ∈ sc.users, FromRecord H p
  | _ => True

def Message.Sourced (H : Uid → Dict → Prop) : Message → Prop
  | .successProfileWith p => FromRecord H p
  | _ => True

variable {H : Uid → Dict → Prop}

theorem FromRecord.image {p : Profile} (h : FromRecord H p) {url : String}
    (hu : p.mUserImgUrl = some url) : FromImage H url := by
  obtain ⟨u, d, hd, rfl⟩ := h
  exact ⟨u, d, hd, hu⟩

theorem Kind.sourced_loaded (k : Kind) {user : Option Profile} (hu : ∀ p ∈ user, FromRecord H p) :
    (k.loaded user).Sourced H := by
  cases k with
  | profile => exact ⟨.inl ⟨rfl, rfl, rfl, rfl, rfl, rfl⟩, by simp [ProfileScreen.loaded]⟩
  | viewProfile =>
    intro url he
    obtain ⟨x, hx, hxu⟩ := Option.map_eq_some_iff.mp he
    obtain ⟨p, hp, hpx⟩ := Option.bind_eq_some_iff.mp hx
    obtain rfl := Picture.url.inj hxu
    exact (hu p hp).image hpx
  | friends =>
    intro p hp
    cases hp
  | _ => trivial

/-- A Profile screen that shows the cache shows a record, all labels at once. -/
theorem ProfileScreen.sourced_profileDataRecieved {sc : ProfileScreen} {user : Option Profile}
    (hsc : (Screen.profile sc).Sourced H) (hu : ∀ p ∈ user, FromRecord H p) :
    ∀ c ∈ sc.profileDataRecieved user, c.Fits (Screen.Sourced H) fun _ => True := by
  unfold ProfileScreen.profileDataRecieved
  cases hj : user.bind Profile.mUserJoinedDate with
  | none => simp [Command.Fits]
  | some date =>
    obtain ⟨p, rfl, hdate⟩ := Option.bind_eq_some_iff.mp hj
    obtain ⟨u, d, hd, rfl⟩ := hu p rfl
    have hjoined : d .mUserJoinedDate = some date := hdate
    have hshown : (Screen.profile {
        profileImage := ((transformUser d).mUserImgUrl).or sc.profileImage
        username := (transformUser d).mUserName
        dob := (transformUser d).mUserDateOfBirth
        gender := (transformUser d).mUserGender
        joinedDate := some ("Ngày tham gia: " ++ date)
        phoneStatus := some ((transformUser d).mUserPhone != some Service.unchosen)
        emailStatus := some (utf16Length (((transformUser d).mUserEmail).getD "") != 0)
        fbStatus := some ((transformUser d).mFBLinking != some "false")
        ggStatus := some ((transformUser d).mEmailLinking != some "false") }).Sourced H := by
      refine ⟨.inr ⟨u, d, hd, rfl, rfl, rfl, by simp [hjoined], rfl, rfl⟩, fun url hurl => ?_⟩
      rcases Option.or_eq_some_iff.mp hurl with himg | ⟨-, himg⟩
      · exact ⟨u, d, hd, himg⟩
      · exact hsc.2 url himg
    simpa [Command.Fits] using hshown

theorem Screen.sourced_receive {sc : Screen} {user : Option Profile} {m : Message}
    {cs : List Command} (hsc : sc.Sourced H) (hu : ∀ p ∈ user, FromRecord H p)
    (hm : m.Sourced H) (h : sc.receive user m = some cs) :
    ∀ c ∈ cs, c.Fits (Screen.Sourced H) fun _ => True := by
  cases received h with
  | profileShown he => exact he ▸ ProfileScreen.sourced_profileDataRecieved hsc hu
  | linkedGG sc | linkedFB sc =>
    have hflag : ∀ b b', (Screen.profile { sc with fbStatus := b, ggStatus := b' }).Sourced H := by
      intro b b'
      refine ⟨?_, hsc.2⟩
      rcases hsc.1 with h | ⟨u, d, hd, h⟩
      · exact .inl ⟨h.1, h.2, h.3, h.4, h.5, h.6⟩
      · exact .inr ⟨u, d, hd, h.1, h.2, h.3, h.4, h.5, h.6⟩
    simpa [Command.Fits] using hflag _ _
  | friendReported sc p =>
    simp only [List.mem_singleton, forall_eq, Command.Fits]
    refine List.forall_mem_append.mpr ⟨hsc, fun p' hp => ?_⟩
    obtain rfl := List.mem_singleton.mp hp
    exact hm
  | _ => simp [Command.Fits, Screen.Sourced]

theorem Screen.sourced_touched {sc : Screen} {touch : Touch} {cs : List Command}
    (h : sc.touched touch = some cs) : ∀ c ∈ cs, c.Fits (Screen.Sourced H) fun _ => True := by
  cases touched_cases h with
  | typed ht =>
    unfold Screen.typed at ht
    split at ht <;> cases ht <;> simp [Command.Fits, Screen.Sourced]
  | _ => simp [Command.Fits, Screen.Sourced]

namespace App

theorem keeps_sourced (H : Uid → Dict → Prop) (t : String) :
    Keeps (Service.Sourced H) (fun _ => Screen.Sourced H) (fun _ => True) (Message.Sourced H)
      (fun _ => True) (fun _ => True) t where
  loaded s k _ hs _ := k.sourced_loaded hs.newUser
  loads := ⟨trivial, trivial⟩
  call s i c r hs _ hr := Service.sourced_step hr hs fun _ _ _ hc => by simp at hc
  receive s _ sc m cs hs hsc hm h := Screen.sourced_receive hsc hs.newUser hm h
  touched _ sc touch cs _ _ h := Screen.sourced_touched h
  authStatus _ := trivial

/-- `Users/u` held `d` at some moment of the run. -/
def Stored (s₀ : App) (h : AppHistory) (u : Uid) (d : Dict) : Prop :=
  ∃ newer older s, h = newer ++ older ∧ machine.Run s₀ older s ∧ s.service.users u = .dict d

theorem Stored.cons {s₀ : App} {h : AppHistory} {u : Uid} {d : Dict} (hd : Stored s₀ h u d)
    (m : AppMove) : Stored s₀ (m :: h) u d := by
  obtain ⟨newer, older, s, rfl, hr, hu⟩ := hd
  exact ⟨m :: newer, older, s, rfl, hr, hu⟩

end App

theorem Message.sourced_announced {s : Service} {e : ServiceEvent} {m : Message}
    (h : s.announced e = some m) (hd : ∀ d ∈ s.reports e, FromRecord H (transformUser d)) :
    m.Sourced H := by
  cases e with
  | call i t c =>
    cases c <;> simp only [Service.announced, reduceCtorEq, Option.some.injEq] at h
    subst h
    trivial
  | complete k t =>
    obtain ⟨w, -, hm⟩ := Option.bind_eq_some_iff.mp h
    unfold Reply.announced at hm
    split at hm <;> (try split_ifs at hm) <;> cases hm <;> trivial
  | dialog k q =>
    rw [Service.announced_dialog h]
    trivial
  | childAdded o v =>
    obtain ⟨d, hr, rfl⟩ := Option.map_eq_some_iff.mp h
    exact hd d hr
  | answer | remoteRecord | remoteField => cases h

namespace App

theorem Holds.imp {I I' : Service → Prop} {J J' : ScreenId → Screen → Prop} {s : App}
    (h : Holds I J s) (hI : ∀ s, I s → I' s) (hJ : ∀ i sc, J i sc → J' i sc) : Holds I' J' s :=
  ⟨hI _ h.service, fun i sc hsc => hJ i sc (h.screens i sc hsc)⟩

end App

theorem Screen.Sourced.mono {H' : Uid → Dict → Prop} (hH : ∀ u d, H u d → H' u d) {sc : Screen}
    (h : sc.Sourced H) : sc.Sourced H' := by
  have himage : ∀ url, FromImage H url → FromImage H' url := fun url ⟨u, d, hd, he⟩ =>
    ⟨u, d, hH u d hd, he⟩
  cases sc with
  | profile sc =>
    exact ⟨h.1.imp_right fun ⟨u, d, hd, hs⟩ => ⟨u, d, hH u d hd, hs⟩,
      fun url hu => himage url (h.2 url hu)⟩
  | viewProfile sc => exact fun url hu => himage url (h url hu)
  | friends sc =>
    intro p hp
    obtain ⟨u, d, hd, he⟩ := h p hp
    exact ⟨u, d, hH u d hd, he⟩
  | _ => trivial

namespace App

theorem users_childAdded {s : Service} {o : Nat} {v : Uid} {r : Done}
    (h : s.step (.childAdded o v) = some r) : r.1.users = s.users := by
  cases (Service.stepped h).2 with
  | told _ _ _ hc => exact hc.users

theorem sourced_cons {s₀ : App} {h : AppHistory} {m : AppMove} (hr : machine.Run s₀ h m.before)
    (hm : machine.Fires m)
    (hs : Holds (Service.Sourced (Stored s₀ h)) (fun _ => Screen.Sourced (Stored s₀ h)) m.before) :
    Holds (Service.Sourced (Stored s₀ (m :: h))) (fun _ => Screen.Sourced (Stored s₀ (m :: h)))
      m.after := by
  have hmono : ∀ u d, Stored s₀ h u d → Stored s₀ (m :: h) u d := fun _ _ hd => hd.cons m
  have hnow : ∀ sv : Service, sv.users = m.before.service.users → ∀ u d,
      sv.users u = .dict d → Stored s₀ (m :: h) u d :=
    fun sv he u d hd => ⟨[m], h, m.before, rfl, hr, he ▸ hd⟩
  have hheard : ∀ sv : Service, sv.users = m.before.service.users → ∀ se, ∀ msg ∈ sv.announced se,
      msg.Sourced (Stored s₀ (m :: h)) := fun sv he se msg hmsg =>
    Message.sourced_announced hmsg fun d hd => by
      obtain ⟨o, v, ob, -, -, hv, -⟩ := Service.reports_eq_some hd
      exact ⟨v, d, hnow sv he v d hv, rfl⟩
  refine (keeps_sourced _ _).step hm (fun _ _ => trivial)
    (hs.imp (fun _ h => h.mono hmono) fun _ _ h => h.mono hmono)
    (fun _ _ _ => trivial) (fun se rr _ hrr => ⟨?_, hheard _ rfl se⟩)
    (E := fun sv => sv.users = m.before.service.users) rfl
    fun v _ sv o rr hE hI hrr => ⟨?_, (users_childAdded hrr).trans hE, hheard sv hE _⟩
  · exact Service.sourced_step hrr (hs.service.mono hmono) fun u d hd _ => hnow _ rfl u d hd
  · exact Service.sourced_step hrr hI fun u d hd _ => hnow sv hE u d hd

theorem sourced_of_run {s₀ s : App} {h : AppHistory} (hl : Launch s₀) (hr : machine.Run s₀ h s) :
    Holds (Service.Sourced (Stored s₀ h)) (fun _ => Screen.Sourced (Stored s₀ h)) s := by
  induction hr with
  | nil => exact ⟨Service.sourced_launch _ hl.service, by simp [hl.screens]⟩
  | cons hr hm ih => exact sourced_cons hr hm ih

/-- In every run of the app the labels of a Profile screen are those of the nib or those of one
record that the database held at an earlier moment; each row of a Friends screen is such a
record, and each picture on show that was not just chosen is that of one. A fetch is answered
with what the database then holds, and a set takes effect when it is made. -/
theorem display_untorn {s₀ s : App} {h : AppHistory} (hl : Launch s₀) (hr : machine.Run s₀ h s)
    {i : ScreenId} {sc : Screen} (hi : s.screens i = some sc) : sc.Sourced (Stored s₀ h) :=
  (sourced_of_run hl hr).screens i sc hi

def openProfile : List Event :=
  script 0 [.launch, .answer 0 (.fetched "u" (.dict (Service.signupRecord "u"))), .complete 0]

theorem opened_profile_untorn :
    let r := (machine.exec [] (start (Service.launch (some "u") ["u"])) openProfile).get (by decide)
    ∃ sc, r.2.screens 1 = some (.profile sc) ∧
      (Screen.profile sc).Sourced (Stored (start (Service.launch (some "u") ["u"])) r.1) := by
  intro r
  have hkind : r.2.screens 1 = some ((r.2.screens 1).get (by decide)) := (Option.some_get _).symm
  have hsourced := display_untorn (start_launch (some "u") ["u"])
    (Machine.exec_run (by decide)) hkind
  exact ⟨_, hkind, hsourced⟩

end App

end Mioto
