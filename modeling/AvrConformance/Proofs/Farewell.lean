import AvrConformance.Proofs.ExitStatus
import AvrConformance.Proofs.Link.Parting
import AvrConformance.Proofs.PartialReport

/-!
# The end of a campaign

A campaign is aborted by its last deed, which is carried out in rounds like every other
(`exists_carries`). If the last of these has failed, the connection is of no use any
more, and the program ends without another word. If not, the target itself has refused
or has stopped for good, and the program parts from it with a farewell (`parts_once`).
-/

namespace AvrConformance

open Link

variable {σ : Type} {settings : RunSettings}

/-! ## The last deed -/

namespace Campaign

/-- A run goes well in all that it does, or is aborted by the last thing that it does. -/
theorem deeds_run_cases (o : Opcode) (settings : RunSettings) (b : Bench σ) (s : σ) :
    ((ofRun ((o.run settings).run b s).1).aborted = false ∧
        ∀ d ∈ Procedure.deeds (o.run settings) b s, d.failure? = none) ∨
      ((ofRun ((o.run settings).run b s).1).aborted = true ∧
        ∃ done last, Procedure.deeds (o.run settings) b s = done ++ [last] ∧
          ∀ d ∈ done, d.failure? = none) := by
  cases hcases : o.cases settings.baseline with
  | error e =>
      obtain ⟨hrun, hidle⟩ := Opcode.run_of_error hcases b s
      rw [hrun, hidle]
      exact .inl ⟨rfl, fun d hd => absurd hd List.not_mem_nil⟩
  | ok cases =>
      rcases o.run_of_ok settings hcases b s with ⟨_, _, hjudges, hresult⟩ |
        ⟨_, _, _, earlier, broken, _, _, _, -, hdeeds, hjudges, hbroken, hresult⟩
      · rw [hresult]
        exact .inl ⟨rfl, hjudges.went⟩
      · obtain ⟨done, last, rfl, hdone, -⟩ := hbroken.failed
        rw [hresult, hdeeds]
        refine .inr ⟨rfl, earlier ++ done, last, (List.append_assoc _ _ _).symm, ?_⟩
        exact List.forall_mem_append.mpr ⟨hjudges.went, hdone⟩

/-- A campaign that is aborted ends with the deed by which the driver failed first. -/
theorem deeds_of_aborted {opcodes : List Opcode} {b : Bench σ} {s : σ}
    (h : ((run settings opcodes).run b s).1.aborted = true) :
    ∃ done last, Procedure.deeds (run settings opcodes) b s = done ++ [last] ∧
      ∀ d ∈ done, d.failure? = none := by
  induction opcodes generalizing s with
  | nil => cases h
  | cons o rest ih =>
      rw [run_campaign_cons] at h
      rw [deeds_cons]
      rcases deeds_run_cases o settings b s with ⟨hgoes, hwent⟩ |
        ⟨haborted, done, last, hdeeds, hdone⟩
      · dsimp only at h ⊢
        rw [if_neg (Bool.eq_false_iff.mp hgoes)] at h ⊢
        dsimp only [append] at h
        rw [hgoes, Bool.false_or] at h
        obtain ⟨done, last, hdeeds, hdone⟩ := ih h
        rw [hdeeds, ← List.append_assoc]
        exact ⟨_, last, rfl, List.forall_mem_append.mpr ⟨hwent, hdone⟩⟩
      · dsimp only
        rw [if_pos haborted, List.append_nil]
        exact ⟨done, last, hdeeds, hdone⟩

end Campaign

/-! ## Deeds as rounds -/

theorem Request.settle_error (q : Request) (e : LinkError) :
    ∃ cause, q.settle (.error e) = .error cause := by
  cases q <;> exact ⟨_, rfl⟩

/-- The rounds carry out the deeds, one or more for each. Only the last of a deed's may
fail, and then the deed does. -/
inductive Carries : List Deed → List Round → Prop
  | nil : Carries [] []
  | cons {d : Deed} {deeds : List Deed} {front rs : List Round} {last : Round}
      (went : ∀ r ∈ front, r.failed = false) (failed : last.failed = true → d.failure? ≠ none)
      (others : Carries deeds rs) : Carries (d :: deeds) (front ++ last :: rs)

/-- If no deed but the last is a failure, no round but the last can have failed. -/
theorem Carries.exists_last {done : List Deed} {last : Deed} {rs : List Round}
    (h : Carries (done ++ [last]) rs) (hdone : ∀ d ∈ done, d.failure? = none) :
    ∃ front r, rs = front ++ [r] ∧ ∀ x ∈ front, x.failed = false := by
  induction done generalizing rs with
  | nil =>
      obtain - | ⟨went, failed, others⟩ := h
      cases others
      exact ⟨_, _, rfl, went⟩
  | cons d done ih =>
      obtain - | @⟨_, _, front, rs, r, went, failed, others⟩ := h
      obtain ⟨more, last, rfl, hmore⟩ := ih others fun x hx => hdone x (List.mem_cons_of_mem d hx)
      have hr : r.failed = false :=
        Bool.eq_false_iff.mpr fun hfailed => failed hfailed (hdone d List.mem_cons_self)
      refine ⟨front ++ r :: more, last, by simp, ?_⟩
      exact List.forall_mem_append.mpr ⟨went, List.forall_mem_cons.mpr ⟨hr, hmore⟩⟩

/-- A request of a campaign is carried out in rounds. -/
theorem exists_carries_request {q : Request} (hq : (Inquiry.request q).OfCase) (s : Session Unit) :
    ∃ front last, Rounds s (front ++ [last]) (Session.target q s).2 ∧
      (Session.target q s).2.connected = s.connected ∧ (∀ r ∈ front, r.failed = false) ∧
      (last.failed = true → Deed.failure? ⟨q, (Session.target q s).1⟩ ≠ none) := by
  have hclose : q ≠ .close := by
    rintro rfl
    exact hq
  have hsome : q.commands ≠ [] := by
    cases q with
    | writeMemory address data =>
        rw [commands_writeMemory_of_pos address hq.1]
        exact List.cons_ne_nil _ _
    | readMemory address count => exact absurd hq id
    | readRegisters => exact List.cons_ne_nil _ _
    | writeRegisters registers => exact List.cons_ne_nil _ _
    | resume signal => exact List.cons_ne_nil _ _
    | step => exact List.cons_ne_nil _ _
    | close => exact absurd hq id
  obtain ⟨rs, hserves, hnonempty⟩ := exists_serves hclose s
  refine ⟨rs.dropLast, rs.getLast (hnonempty hsome), ?_, hserves.kept, hserves.went, ?_⟩
  · rw [List.dropLast_concat_getLast]
    exact hserves.rounds
  · intro hfailed
    obtain ⟨e, he⟩ := Round.failed_eq_true_iff.mp hfailed
    rw [hserves.failed _ (List.getLast_mem _) e he]
    obtain ⟨cause, hcause⟩ := q.settle_error e
    rw [Deed.failure?_of_error hcause]
    exact Option.some_ne_none cause

namespace Rehearsal

/-- What a campaign does over a connection is a row of rounds. -/
theorem exists_carries {α : Type} {p : Procedure α} (hp : Dialogue.Asks Inquiry.OfCampaign p)
    {r : Rehearsal} {s : Session Unit} (hs : r.session = some s) :
    ∃ s' rs, (p.run bench r).2.session = some s' ∧ s'.connected = s.connected ∧ Rounds s rs s' ∧
      Carries (Procedure.deeds p bench r) rs := by
  induction p generalizing r s with
  | done a => exact ⟨s, [], hs, rfl, .nil s, .nil⟩
  | ask q next ih =>
      obtain ⟨hq, hnext⟩ := hp
      rw [Procedure.deeds_ask]
      cases q with
      | request q =>
          have hcase : (Inquiry.request q).OfCase := hq.elim id nofun
          obtain ⟨front, last, hrounds, hkept, hwent, hfailed⟩ := exists_carries_request hcase s
          have hanswer : bench.answer (.request q) r =
              ((Session.target q s).1, r.withSession (Session.target q s).2) := by
            show r.request q = _
            simp only [request, hs]
          have hsession : (r.withSession (Session.target q s).2).session =
              some { (Session.target q s).2 with notes := #[] } := rfl
          obtain ⟨s', rs, hleft, hstill, hrest, hcarries⟩ := ih (Session.target q s).1
            (hnext (Session.target q s).1) hsession
          refine ⟨s', front ++ last :: rs, ?_, hstill.trans hkept, ?_, ?_⟩
          · show (Procedure.run (next (bench.answer (.request q) r).1) bench
              (bench.answer (.request q) r).2).2.session = _
            rw [hanswer]
            exact hleft
          · have hall := hrounds.trans (.noted #[] hrest)
            rwa [List.append_assoc] at hall
          · rw [hanswer]
            exact .cons hwent hfailed hcarries
      | note n => exact ih () (hnext ()) hs
      | clock => exact ih _ (hnext _) hs

/-! ## The program -/

theorem session_note (level : Level) (message : String) (r : Rehearsal) :
    (Dialogue.run answer (Program.note level message) r).2.session = r.session := rfl

theorem session_printAll (texts : List String) (r : Rehearsal) :
    (Dialogue.run answer (Program.printAll texts) r).2.session = r.session := by
  induction texts generalizing r with
  | nil => rfl
  | cons text rest ih =>
      simp only [Program.printAll, Program.errand, Dialogue.run_bind, Dialogue.run_question]
      exact ih _

theorem session_fileReports (path : Option String) (reports : List Report) (r : Rehearsal) :
    (Dialogue.run answer (Program.fileReports path reports) r).2.session = r.session := by
  cases path with
  | none => rfl
  | some path =>
      simp only [Program.fileReports, Program.errand, Dialogue.run_bind, Dialogue.run_question,
        answer]
      cases r.places path with
      | ok u => exact session_note _ _ _
      | error cause => exact session_note _ _ _

/-- Behind an aborted campaign the session is let go, and that is all. -/
theorem session_conduct {s : Settings} {r : Rehearsal} {s₂ : Session Unit}
    (haborted : ((Campaign.run s.run (Program.selection s)).run bench r).1.aborted = true)
    (hs₂ : ((Campaign.run s.run (Program.selection s)).run bench r).2.session = some s₂) :
    (Dialogue.run answer (Program.conduct s) r).2.session =
      some { s₂.release with notes := #[] } := by
  let count := (Program.selection s).length
  let n : Note := ⟨.info, s!"connected to {s.target.host}:{s.target.port}, {count} opcode(s)"⟩
  -- the opening note makes no difference to the campaign
  have hnoted : Alike (r.withNote n) r := ⟨rfl, rfl⟩
  obtain ⟨hresult, hleft, -⟩ := bench_unheeded.run (Campaign.run s.run (Program.selection s)) hnoted
  have hperform : Dialogue.run answer (Program.perform (Campaign.run s.run (Program.selection s)))
      (r.withNote n) = (Campaign.run s.run (Program.selection s)).run bench (r.withNote n) :=
    run_perform (fun _ _ _ => rfl) (Campaign.asks_run s.run (Program.selection s)) _
  rw [← hresult] at haborted
  rw [← hleft] at hs₂
  generalize (Campaign.run s.run (Program.selection s)).run bench (r.withNote n) = conducted
    at haborted hs₂ hperform
  obtain ⟨campaign, r₂⟩ := conducted
  dsimp only at haborted hs₂
  have hkept : ∀ path, (Dialogue.run answer (Program.fileReports path campaign.reports)
      (Dialogue.run answer (Program.printAll campaign.texts) r₂).2).2.session = some s₂ := by
    intro path
    rw [session_fileReports, session_printAll, hs₂]
  have hrelease : ∀ r : Rehearsal, r.session = some s₂ →
      (Dialogue.run answer (Program.errand .release) r).2.session =
        some { s₂.release with notes := #[] } := by
    intro r hr
    simp only [Program.errand, Dialogue.run_question, answer, hr]
    rfl
  simp only [Program.conduct, Dialogue.run_bind]
  have hopened : (Dialogue.run answer (Program.note n.level n.message) r).2 = r.withNote n := rfl
  rw [hopened, hperform]
  simp only [Program.takeLeave, haborted, if_true, Dialogue.run_pure]
  exact hrelease _ (hkept _)

/-- Over a connection that shakes hands, no exchange has failed yet. -/
theorem exists_session_of_connect {r : Rehearsal} {target : TargetSettings}
    (h : (r.connect target).1 = .ok ()) :
    ∃ s, (r.connect target).2.session = some s ∧ s.poisoned = false ∧ s.connected = true := by
  unfold connect at h ⊢
  cases hpeer : r.peer with
  | error cause =>
      rw [hpeer] at h
      cases h
  | ok recording =>
      rw [hpeer] at h
      exact ⟨_, rfl, sound_of_start h⟩

/-- The session of a program that gets as far as its campaign. -/
theorem session_run {words : List String} {r : Rehearsal} {line : CommandLine} {s : Settings}
    {s₂ : Session Unit} (hparse : CommandLine.parse words = .ok line)
    (haccepted : line.accepted r.files = .ok s) (hconnect : (r.connect s.target).1 = .ok ())
    (haborted : (r.campaign s).aborted = true)
    (hs₂ : ((Campaign.run s.run (Program.selection s)).run bench (r.connect s.target).2).2.session
      = some s₂) :
    (r.run words).2.session = some { s₂.release with notes := #[] } := by
  have hsettings : Dialogue.run answer (Program.settings line) r = (.ok s, r) := by
    rw [run_settings (fun _ _ _ => rfl), haccepted]
  simp only [run, Program.run, hparse, Dialogue.run_bind, hsettings, Program.errand,
    Dialogue.run_question, answer, hconnect]
  exact session_conduct haborted hs₂

/-- **Taking leave.** Whatever a peer sends, a session in which an exchange has failed parts
from it in silence, and any other with one farewell. In a program whose campaign is
aborted, only the last round of the campaign can have failed. If it has, nothing more is
sent. If not, it has brought an undamaged packet, and exactly one farewell is sent. -/
theorem parts_once :
    (∀ (π : Type) [Peer π] (address : String) (incoming : List UInt8) (ending : Ending) (peer : π)
        (wantNoAck : Bool) (requests : List Request),
      let s₀ := Session.fresh address incoming ending peer
      ∃ rounds, Rounds s₀ rounds (s₀.held wantNoAck requests) ∧
        Parting (s₀.held wantNoAck requests) (rounds.any Round.failed)) ∧
    ∀ (words : List String) (r : Rehearsal) (line : CommandLine) (s : Settings),
      CommandLine.parse words = .ok line → line.accepted r.files = .ok s →
      (r.connect s.target).1 = .ok () → (r.campaign s).aborted = true →
      ∃ s₁ s₂ s₃ rounds last,
        (r.connect s.target).2.session = some s₁ ∧
        ((Campaign.run s.run (Program.selection s)).run bench (r.connect s.target).2).2.session =
          some s₂ ∧
        (r.run words).2.session = some s₃ ∧
        Rounds s₁ (rounds ++ [last]) s₂ ∧ (∀ x ∈ rounds, x.failed = false) ∧
        (last.failed = true → s₃.sent = s₂.sent) ∧
        (last.failed = false →
          (∃ reply, last.result = .ok reply ∧ Brings last.arrivals reply) ∧
            s₃.sent = s₂.sent.push farewell) := by
  refine ⟨?_, ?_⟩
  · intro π _ address incoming ending peer wantNoAck requests s₀
    obtain ⟨first, later, hrounds, -⟩ := exists_rounds_held wantNoAck requests s₀
    refine ⟨first ++ later, hrounds, parting_of_poisoned ?_⟩
    rw [hrounds.poisoned]
    exact Bool.false_or _
  · intro words r line s hparse haccepted hconnect haborted
    obtain ⟨s₁, hs₁, hpoisoned, hconnected⟩ := exists_session_of_connect hconnect
    obtain ⟨s₂, rs, hs₂, hkept, hrounds, hcarries⟩ :=
      exists_carries (Campaign.asks_run s.run (Program.selection s)) hs₁
    obtain ⟨done, deed, hdeeds, hdone⟩ := Campaign.deeds_of_aborted haborted
    rw [hdeeds] at hcarries
    obtain ⟨rounds, last, rfl, hwent⟩ := hcarries.exists_last hdone
    have hs₃ := session_run hparse haccepted hconnect haborted hs₂
    -- whether the session is poisoned is for its last round to say
    have hparting : Parting s₂ last.failed := by
      refine parting_of_poisoned ?_
      have hnever : rounds.any Round.failed = false := by
        rw [List.any_eq_false]
        intro x hx
        rw [hwent x hx]
        exact Bool.false_ne_true
      rw [hrounds.poisoned, hpoisoned, List.any_append, hnever]
      simp
    refine ⟨s₁, s₂, _, rounds, last, hs₁, hs₂, hs₃, hrounds, hwent, ?_, ?_⟩
    · intro hfailed
      exact (hparting.silent hfailed).2
    · intro hanswered
      obtain ⟨reply, hreply⟩ := Round.failed_eq_false_iff.mp hanswered
      obtain ⟨_, _, htakes⟩ := hrounds.exists_takes_of_mem last
        (List.mem_append_right rounds List.mem_cons_self)
      refine ⟨⟨reply, hreply, htakes.told reply hreply⟩, ?_⟩
      exact (hparting.letGo hanswered (hkept.trans hconnected)).1

/-- A target that refuses the first request of a campaign is parted from with a farewell. -/
theorem parts_once_of_refusal :
    let rx := ['+', '$', 'S', '0', '5', '#', 'b', '8', '+', '$', 'E', '0', '1', '#', 'a', '6']
    let r := fresh Except.error (fun _ => .ok ()) (.ok ⟨codes rx, .closed⟩) Timestamp.epoch
    ∃ s, CommandLine.accepted ⟨none, []⟩ r.files = .ok s ∧ (r.connect s.target).1 = .ok () ∧
      (r.campaign s).aborted = true ∧
      ∃ s₂ s₃,
        ((Campaign.run s.run (Program.selection s)).run bench (r.connect s.target).2).2.session =
          some s₂ ∧
        (r.run []).2.session = some s₃ ∧ s₂.poisoned = false ∧
        s₃.sent = s₂.sent.push farewell := by
  intro rx r
  refine ⟨_, rfl, rfl, rfl, ?_⟩
  obtain ⟨s₁, s₂, s₃, rounds, last, -, hs₂, hs₃, hrounds, -, -, hanswered⟩ :=
    parts_once.2 [] r _ _ rfl rfl rfl rfl
  have hsound : s₂.poisoned = false := by
    cases hs₂
    rfl
  refine ⟨s₂, s₃, hs₂, hs₃, hsound, (hanswered ?_).2⟩
  -- a failed round would have left its mark
  have hpoisoned := hrounds.poisoned.symm.trans hsound
  rw [List.any_append, List.any_cons] at hpoisoned
  simp only [Bool.or_eq_false_iff] at hpoisoned
  exact hpoisoned.2.2.1

end Rehearsal

end AvrConformance
