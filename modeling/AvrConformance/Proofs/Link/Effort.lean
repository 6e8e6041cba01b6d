import AvrConformance.Proofs.Link.Attempts

/-!
# Bounded effort

No peer, whatever it sends, makes an exchange transmit or keep more than a few packets'
worth. How often the command is sent is told by the refusals at the head of the stream
(`refusals`), and whether it is accepted by where they end (`Accepts`). Behind that, a row
of damaged packets (`DamagedRow`) decides how often a repetition is called for, and the
first packet too long (`Overlong`) ends the exchange at once. A payload is kept in a store
that has no room for more than the limit (`Store`).
-/

namespace AvrConformance.Link

/-! ## Signals -/

/-- Does a byte mean something to those who wait for an acknowledgement? -/
def isSignal (b : UInt8) : Bool := b == packetStart || b == 0x2B || b == 0x2D

def signals (bytes : List UInt8) : List UInt8 := bytes.filter isSignal

/-- How many refusals come before anything by which a command is accepted. -/
def refusals (bytes : List UInt8) : Nat := ((signals bytes).takeWhile (· == 0x2D)).length

theorem signals_noise {noise : List UInt8} (h : Noise noise) (rest : List UInt8) :
    signals (noise ++ rest) = signals rest := by
  have hnone : noise.filter isSignal = [] := by
    refine List.filter_eq_nil_iff.mpr fun b hb => ?_
    obtain ⟨hstart, hplus, hminus⟩ := h b hb
    simp [isSignal, hstart, hplus, hminus]
  rw [signals, List.filter_append, hnone, List.nil_append]
  rfl

/-- So many signals are refusals exactly if as many come before any other. -/
theorem take_signals_iff {bytes : List UInt8} {n : Nat} :
    (signals bytes).take n = List.replicate n 0x2D ↔ n ≤ refusals bytes := by
  unfold refusals
  induction signals bytes generalizing n with
  | nil => cases n <;> simp
  | cons b others ih =>
      cases n with
      | zero => simp
      | succ n =>
          by_cases hb : b = 0x2D
          · simp [hb, ih, List.replicate_succ]
          · simp [hb, List.replicate_succ]

theorem refusals_of_none {bytes : List UInt8} (h : takeAck bytes = none) : refusals bytes = 0 := by
  have hnone := signals_noise (takeAck_eq_none_iff.mp h) []
  rw [List.append_nil] at hnone
  rw [refusals, hnone]
  rfl

theorem refusals_of_accepted {bytes rest : List UInt8} (h : takeAck bytes = some (true, rest)) :
    refusals bytes = 0 := by
  obtain ⟨noise, hnoise, rfl | ⟨behind, rfl, rfl⟩⟩ := takeAck_eq_accepted_iff.mp h
  all_goals
    rw [refusals, signals_noise hnoise]
    rfl

theorem refusals_of_refused {bytes rest : List UInt8} (h : takeAck bytes = some (false, rest)) :
    refusals bytes = refusals rest + 1 := by
  obtain ⟨noise, hnoise, rfl⟩ := takeAck_eq_refused_iff.mp h
  rw [refusals, signals_noise hnoise]
  rfl

/-! ## Deliveries -/

/-- With so many sendings the stream accepts a command, and this is what comes behind: it
opens with noise and refusals up to an acknowledgement, or up to the start of a packet,
which stays. Without acknowledgements a command counts as accepted at once. -/
inductive Accepts (noAck : Bool) : Nat → List UInt8 → List UInt8 → Prop
  | unanswered {left : Nat} (mode : noAck = true) (bytes : List UInt8) :
      Accepts noAck (left + 1) bytes bytes
  | acknowledged {left : Nat} {noise : List UInt8} (mode : noAck = false) (idle : Noise noise)
      (rest : List UInt8) : Accepts noAck (left + 1) (noise ++ 0x2B :: rest) rest
  | started {left : Nat} {noise : List UInt8} (mode : noAck = false) (idle : Noise noise)
      (rest : List UInt8) :
      Accepts noAck (left + 1) (noise ++ packetStart :: rest) (packetStart :: rest)
  | refused {left : Nat} {noise bytes rest : List UInt8} (mode : noAck = false)
      (idle : Noise noise) (later : Accepts noAck left bytes rest) :
      Accepts noAck (left + 1) (noise ++ 0x2D :: bytes) rest

/-- Acceptance as whoever waits for an acknowledgement finds it. -/
theorem accepts_succ_iff {left : Nat} {bytes rest : List UInt8} :
    Accepts false (left + 1) bytes rest ↔ takeAck bytes = some (true, rest) ∨
      ∃ behind, takeAck bytes = some (false, behind) ∧ Accepts false left behind rest := by
  constructor
  · intro h
    cases h with
    | unanswered mode => cases mode
    | acknowledged mode idle =>
        exact .inl (takeAck_eq_accepted_iff.mpr ⟨_, idle, .inl rfl⟩)
    | started mode idle =>
        exact .inl (takeAck_eq_accepted_iff.mpr ⟨_, idle, .inr ⟨_, rfl, rfl⟩⟩)
    | refused mode idle later =>
        exact .inr ⟨_, takeAck_eq_refused_iff.mpr ⟨_, idle, rfl⟩, later⟩
  · rintro (h | ⟨behind, h, later⟩)
    · obtain ⟨noise, idle, rfl | ⟨behind, rfl, rfl⟩⟩ := takeAck_eq_accepted_iff.mp h
      · exact .acknowledged rfl idle rest
      · exact .started rfl idle behind
    · obtain ⟨noise, idle, rfl⟩ := takeAck_eq_refused_iff.mp h
      exact .refused rfl idle later

namespace Delivers

variable {noAck : Bool} {ending : Ending} {left n : Nat} {bytes unread : List UInt8}
  {result : Except LinkError Unit}

/-- The command is sent again after each refusal, as long as there are attempts left. -/
theorem sendings_eq (h : Delivers noAck ending left bytes n result unread) (hmode : noAck = false) :
    n = min left (refusals bytes + 1) := by
  induction h with
  | spent bytes => exact (Nat.zero_min _).symm
  | unanswered mode bytes => exact nomatch hmode.symm.trans mode
  | starved mode heard =>
      rw [refusals_of_none heard]
      omega
  | accepted mode heard =>
      rw [refusals_of_accepted heard]
      omega
  | refused mode heard again ih =>
      rw [ih, refusals_of_refused heard]
      omega

theorem sent_once (h : Delivers noAck ending (left + 1) bytes n result unread)
    (hmode : noAck = true) : n = 1 := by
  cases h with
  | unanswered mode bytes => rfl
  | starved mode heard => rfl
  | accepted mode heard => rfl
  | refused mode heard again => exact nomatch hmode.symm.trans mode

theorem error_cases (h : Delivers noAck ending left bytes n result unread) {e : LinkError}
    (hresult : result = .error e) : e = .rejected maxAttempts ∨ e = ending.error := by
  induction h with
  | spent bytes => exact .inl (Except.error.inj hresult).symm
  | unanswered mode bytes => cases hresult
  | starved mode heard => exact .inr (Except.error.inj hresult).symm
  | accepted mode heard => cases hresult
  | refused mode heard again ih => exact ih hresult

/-- A command is given up exactly if there are as many refusals as attempts. -/
theorem rejected_iff (h : Delivers noAck ending left bytes n result unread)
    (hmode : noAck = false) :
    result = .error (.rejected maxAttempts) ↔ left ≤ refusals bytes := by
  induction h with
  | spent bytes => exact iff_of_true rfl (Nat.zero_le _)
  | unanswered mode bytes => exact nomatch hmode.symm.trans mode
  | starved mode heard =>
      rw [refusals_of_none heard]
      refine iff_of_false (fun hsame => ?_) (Nat.not_succ_le_zero _)
      cases ending <;> cases hsame
  | accepted mode heard =>
      rw [refusals_of_accepted heard]
      exact iff_of_false nofun (Nat.not_succ_le_zero _)
  | refused mode heard again ih =>
      rw [ih, refusals_of_refused heard, Nat.add_le_add_iff_right]

/-- A delivery succeeds exactly if the stream accepts the command, and leaves what comes
behind. -/
theorem accepts_iff (h : Delivers noAck ending left bytes n result unread) {rest : List UInt8} :
    Accepts noAck left bytes rest ↔ result = .ok () ∧ unread = rest := by
  induction h with
  | spent bytes => exact iff_of_false nofun nofun
  | unanswered mode bytes =>
      subst mode
      constructor
      · intro h
        cases h with
        | unanswered mode bytes => exact ⟨rfl, rfl⟩
        | acknowledged mode idle rest => cases mode
        | started mode idle rest => cases mode
        | refused mode idle later => cases mode
      · rintro ⟨-, rfl⟩
        exact .unanswered rfl bytes
  | starved mode heard =>
      subst mode
      rw [accepts_succ_iff, heard]
      exact iff_of_false (by simp) nofun
  | accepted mode heard =>
      subst mode
      rw [accepts_succ_iff, heard]
      simp
  | refused mode heard again ih =>
      subst mode
      rw [accepts_succ_iff, heard, ← ih]
      simp

end Delivers

/-! ## Damaged packets -/

/-- The stream opens with a packet whose trailer is a number other than the checksum of
its payload, and this is what comes behind. -/
def Damaged (bytes rest : List UInt8) : Prop :=
  ∃ gap payload high low sum, packetStart ∉ gap ∧
    bytes = gap ++ packetStart :: (payload ++ packetEnd :: high :: low :: rest) ∧
    packetEnd ∉ payload ∧ payload.length ≤ packetLimit ∧
    (Digits sum high low ∨ SignedDigit sum high low) ∧ sum ≠ checksum payload

/-- The stream opens with so many damaged packets, and this is what comes behind. -/
inductive DamagedRow : Nat → List UInt8 → List UInt8 → Prop
  | nil (bytes : List UInt8) : DamagedRow 0 bytes bytes
  | cons {n : Nat} {bytes rest unread : List UInt8} (first : Damaged bytes rest)
      (others : DamagedRow n rest unread) : DamagedRow (n + 1) bytes unread

/-- The stream opens with a packet that has one byte more than the limit before any end
mark. -/
def Overlong (bytes : List UInt8) : Prop :=
  ∃ gap long rest, packetStart ∉ gap ∧ bytes = gap ++ packetStart :: (long ++ rest) ∧
    packetEnd ∉ long ∧ long.length = packetLimit + 1

theorem damaged_iff {bytes rest : List UInt8} :
    Damaged bytes rest ↔
      ∃ payload sum, takePacket bytes = (.packet payload sum, rest) ∧ sum ≠ checksum payload := by
  constructor
  · rintro ⟨gap, payload, high, low, sum, hgap, hbytes, hfree, hroom, htrailer, hwrong⟩
    exact ⟨payload, sum, takePacket_eq_packet_iff.mpr
      ⟨gap, high, low, hgap, hbytes, hfree, hroom, trailer?_eq_some_iff.mpr htrailer⟩, hwrong⟩
  · rintro ⟨payload, sum, hpacket, hwrong⟩
    obtain ⟨gap, high, low, hgap, hbytes, hfree, hroom, htrailer⟩ :=
      takePacket_eq_packet_iff.mp hpacket
    exact ⟨gap, payload, high, low, sum, hgap, hbytes, hfree, hroom,
      trailer?_eq_some_iff.mp htrailer, hwrong⟩

theorem overlong_iff {bytes : List UInt8} :
    Overlong bytes ↔ (takePacket bytes).1 = .oversized := by
  constructor
  · rintro ⟨gap, long, rest, hover⟩
    rw [takePacket_eq_oversized_iff.mpr ⟨gap, long, hover⟩]
  · intro h
    obtain ⟨gap, long, hover⟩ := takePacket_eq_oversized_iff.mp (Prod.ext h rfl)
    exact ⟨gap, long, _, hover⟩

theorem damagedRow_succ_iff {n : Nat} {bytes unread : List UInt8} :
    DamagedRow (n + 1) bytes unread ↔ ∃ rest, Damaged bytes rest ∧ DamagedRow n rest unread := by
  constructor
  · rintro (_ | ⟨first, others⟩)
    exact ⟨_, first, others⟩
  · rintro ⟨rest, first, others⟩
    exact .cons first others

/-- Behind a damaged packet the row goes on. -/
theorem damagedRow_of_wrong {n : Nat} {bytes payload rest unread : List UInt8} {sum : UInt8}
    (arrives : takePacket bytes = (.packet payload sum, rest)) (wrong : sum ≠ checksum payload) :
    DamagedRow (n + 1) bytes unread ↔ DamagedRow n rest unread := by
  rw [damagedRow_succ_iff]
  constructor
  · rintro ⟨behind, first, others⟩
    obtain ⟨_, _, hfirst, -⟩ := damaged_iff.mp first
    rw [arrives] at hfirst
    cases hfirst
    exact others
  · intro others
    exact ⟨rest, damaged_iff.mpr ⟨payload, sum, arrives, wrong⟩, others⟩

/-- If this is a packet, it is undamaged. -/
def Arrival.Undamaged (a : Arrival) : Prop :=
  ∀ payload sum, a = .packet payload sum → sum = checksum payload

theorem Arrival.undamaged_packet (payload : List UInt8) :
    (packet payload (checksum payload)).Undamaged := by
  intro other sum hsame
  cases hsame
  rfl

theorem Arrival.undamaged_of_failure {a : Arrival} {ending : Ending} {e : LinkError}
    (h : a.failure? ending = some e) : a.Undamaged := by
  intro payload sum hsame
  rw [hsame] at h
  cases h

/-- A row of damaged packets begins with one. -/
theorem not_damagedRow {n : Nat} {bytes rest unread : List UInt8} {a : Arrival}
    (arrives : takePacket bytes = (a, rest)) (intact : a.Undamaged) :
    ¬ DamagedRow (n + 1) bytes unread := by
  intro hrow
  obtain ⟨behind, first, -⟩ := damagedRow_succ_iff.mp hrow
  obtain ⟨payload, sum, hpacket, hwrong⟩ := damaged_iff.mp first
  rw [arrives] at hpacket
  exact hwrong (intact payload sum (congrArg Prod.fst hpacket))

/-- With so many attempts a packet that is too long is met, behind damaged packets if
those are called for again. -/
def MeetsOverlong (noAck : Bool) (left : Nat) (bytes : List UInt8) : Prop :=
  ∃ k rest, k < left ∧ (noAck = true → k = 0) ∧ DamagedRow k bytes rest ∧ Overlong rest

/-- Unless the first packet is called for again, nothing behind it is met. -/
theorem meetsOverlong_iff_first {noAck : Bool} {left : Nat} {bytes rest : List UInt8} {a : Arrival}
    (arrives : takePacket bytes = (a, rest)) (h : noAck = true ∨ a.Undamaged) :
    MeetsOverlong noAck (left + 1) bytes ↔ a = .oversized := by
  have hover : Overlong bytes ↔ a = .oversized := by rw [overlong_iff, arrives]
  rw [← hover]
  constructor
  · rintro ⟨k, behind, -, hfirst, hrow, hlong⟩
    cases k with
    | zero =>
        cases hrow
        exact hlong
    | succ k =>
        rcases h with hmode | hintact
        · exact absurd (hfirst hmode) (Nat.succ_ne_zero k)
        · exact absurd hrow (not_damagedRow arrives hintact)
  · intro hfirst
    exact ⟨0, bytes, Nat.succ_pos left, fun _ => rfl, .nil bytes, hfirst⟩

/-- Behind a packet that is called for again, the next is met. -/
theorem meetsOverlong_iff_next {left : Nat} {bytes payload rest : List UInt8} {sum : UInt8}
    (arrives : takePacket bytes = (.packet payload sum, rest)) (wrong : sum ≠ checksum payload) :
    MeetsOverlong false (left + 1) bytes ↔ MeetsOverlong false left rest := by
  constructor
  · rintro ⟨k, behind, hk, -, hrow, hover⟩
    cases k with
    | zero =>
        cases hrow
        have hlong := overlong_iff.mp hover
        rw [arrives] at hlong
        cases hlong
    | succ k =>
        exact ⟨k, behind, Nat.lt_of_succ_lt_succ hk, nofun,
          (damagedRow_of_wrong arrives wrong).mp hrow, hover⟩
  · rintro ⟨k, behind, hk, -, hrow, hover⟩
    exact ⟨k + 1, behind, Nat.succ_lt_succ hk, nofun,
      (damagedRow_of_wrong arrives wrong).mpr hrow, hover⟩

/-! ## Receipts -/

/-- The error of an arrival says nothing of a number of attempts. -/
theorem Arrival.failure_ne {a : Arrival} {ending : Ending} {e : LinkError}
    (h : a.failure? ending = some e) (attempts : Nat) :
    e ≠ .rejected attempts ∧ e ≠ .malformed (.checksums attempts) := by
  cases a with
  | packet payload sum => cases h
  | oversized =>
      cases h
      exact ⟨nofun, nofun⟩
  | noTrailer =>
      cases h
      exact ⟨nofun, nofun⟩
  | ended => cases ending <;> cases h <;> exact ⟨nofun, nofun⟩

theorem Arrival.failure_eq_oversized_iff {a : Arrival} {ending : Ending} {e : LinkError}
    (h : a.failure? ending = some e) : e = .oversized packetLimit ↔ a = .oversized := by
  cases a with
  | packet payload sum => cases h
  | oversized =>
      cases h
      exact iff_of_true rfl rfl
  | noTrailer =>
      cases h
      exact iff_of_false nofun nofun
  | ended => cases ending <;> cases h <;> exact iff_of_false nofun nofun

namespace Receives

variable {noAck : Bool} {ending : Ending} {left : Nat} {bytes unread : List UInt8}
  {us : List Transmission} {result : Except LinkError String}

theorem silent (h : Receives noAck ending left bytes us result unread) (hmode : noAck = true) :
    us = [] := by
  cases h with
  | spent bytes => rfl
  | barren arrives failure => rfl
  | intact arrives => exact if_pos hmode
  | damaged mode arrives wrong => rfl
  | repeated mode arrives wrong again => exact nomatch hmode.symm.trans mode

/-- As many repetitions are called for as there are attempts at most, and an
acknowledgement comes last. -/
theorem exists_answers (h : Receives noAck ending left bytes us result unread) :
    ∃ naks acks, us = List.replicate naks .nak ++ acks ∧ naks ≤ left ∧
      (acks = [] ∨ acks = [.ack]) := by
  induction h with
  | spent bytes => exact ⟨0, [], rfl, Nat.le_refl 0, .inl rfl⟩
  | barren arrives failure => exact ⟨0, [], rfl, Nat.zero_le _, .inl rfl⟩
  | intact arrives =>
      refine ⟨0, if noAck then [] else [.ack], rfl, Nat.zero_le _, ?_⟩
      split
      · exact .inl rfl
      · exact .inr rfl
  | damaged mode arrives wrong => exact ⟨0, [], rfl, Nat.zero_le _, .inl rfl⟩
  | repeated mode arrives wrong again ih =>
      obtain ⟨naks, acks, rfl, hbound, hacks⟩ := ih
      exact ⟨naks + 1, acks, rfl, Nat.succ_le_succ hbound, hacks⟩

theorem ne_rejected (h : Receives noAck ending left bytes us result unread) (attempts : Nat) :
    result ≠ .error (.rejected attempts) := by
  induction h with
  | spent bytes => exact nofun
  | barren arrives failure =>
      exact fun hresult => (Arrival.failure_ne failure attempts).1 (Except.error.inj hresult)
  | intact arrives => exact fun hresult => nomatch eq_encoding_of_readText hresult
  | damaged mode arrives wrong => exact nofun
  | repeated mode arrives wrong again ih => exact ih

/-- The attempts are used up exactly by as many damaged packets. -/
theorem checksums_iff (h : Receives noAck ending left bytes us result unread)
    (hmode : noAck = false) :
    result = .error (.malformed (.checksums maxAttempts)) ↔ ∃ rest, DamagedRow left bytes rest := by
  induction h with
  | spent bytes => exact iff_of_true rfl ⟨bytes, .nil bytes⟩
  | barren arrives failure =>
      exact iff_of_false
        (fun hresult => (Arrival.failure_ne failure maxAttempts).2 (Except.error.inj hresult))
        (fun ⟨_, hrow⟩ => not_damagedRow arrives (Arrival.undamaged_of_failure failure) hrow)
  | intact arrives =>
      exact iff_of_false (fun hresult => nomatch eq_encoding_of_readText hresult)
        (fun ⟨_, hrow⟩ => not_damagedRow arrives (Arrival.undamaged_packet _) hrow)
  | damaged mode arrives wrong => exact nomatch hmode.symm.trans mode
  | repeated mode arrives wrong again ih =>
      rw [ih]
      exact exists_congr fun rest => (damagedRow_of_wrong arrives wrong).symm

/-- A packet that is too long ends the attempts, wherever it is met. -/
theorem oversized_iff (h : Receives noAck ending left bytes us result unread) :
    result = .error (.oversized packetLimit) ↔ MeetsOverlong noAck left bytes := by
  induction h with
  | spent bytes => exact iff_of_false nofun (fun ⟨k, _, hk, _⟩ => Nat.not_lt_zero k hk)
  | barren arrives failure =>
      rw [meetsOverlong_iff_first arrives (.inr (Arrival.undamaged_of_failure failure)),
        Except.error.injEq]
      exact Arrival.failure_eq_oversized_iff failure
  | intact arrives =>
      rw [meetsOverlong_iff_first arrives (.inr (Arrival.undamaged_packet _))]
      exact iff_of_false (fun hresult => nomatch eq_encoding_of_readText hresult) nofun
  | damaged mode arrives wrong =>
      rw [meetsOverlong_iff_first arrives (.inl mode)]
      exact iff_of_false nofun nofun
  | repeated mode arrives wrong again ih =>
      subst mode
      rw [ih, meetsOverlong_iff_next arrives wrong]

end Receives

/-! ## Exchanges -/

/-- What is transmitted to exchange a payload over a stream, and what the limits of an
exchange come to. -/
structure Effort (noAck : Bool) (payload : String) (stream : List UInt8)
    (ts : List Transmission) (result : Except LinkError String) : Prop where
  /-- Without acknowledgements the command is sent once, and nothing is answered. -/
  silent : noAck = true → ts = [.packet payload]
  /-- Otherwise it is sent again after each refusal, as long as there are attempts left.
  Behind it there are at most so many calls for a repetition, and an acknowledgement. -/
  spoken : noAck = false → ∃ naks acks,
    ts = List.replicate (min maxAttempts (refusals stream + 1)) (.packet payload) ++
      (List.replicate naks .nak ++ acks) ∧ naks ≤ maxAttempts ∧ (acks = [] ∨ acks = [.ack])
  /-- The command is given up exactly if the first signals are all refusals. -/
  rejected : noAck = false → (result = .error (.rejected maxAttempts) ↔
    (signals stream).take maxAttempts = List.replicate maxAttempts 0x2D)
  /-- The reply is given up exactly if the first packets behind the acceptance are all
  damaged. -/
  garbled : noAck = false → (result = .error (.malformed (.checksums maxAttempts)) ↔
    ∃ rest unread, Accepts noAck maxAttempts stream rest ∧ DamagedRow maxAttempts rest unread)
  oversized : result = .error (.oversized packetLimit) ↔
    ∃ rest, Accepts noAck maxAttempts stream rest ∧ MeetsOverlong noAck maxAttempts rest

/-- Only runs that cannot be expanded change the error of a reply. -/
theorem bind_expand_eq_error_iff {told : Except LinkError String} {e : LinkError}
    (h : ∀ text, e ≠ .malformed (.runLength text)) :
    told.bind Reply.expand = .error e ↔ told = .error e := by
  cases told with
  | error e' => rfl
  | ok text => exact iff_of_false (fun hexpand => h text (eq_runLength_of_expand hexpand)) nofun

namespace Delivers

variable {noAck : Bool} {ending : Ending} {n : Nat} {bytes unread : List UInt8}

/-- A delivery that fails is not followed by a receipt. -/
theorem effort_of_error {e : LinkError} (payload : String)
    (h : Delivers noAck ending maxAttempts bytes n (.error e) unread) :
    Effort noAck payload bytes (List.replicate n (.packet payload) ++ []) (.error e) := by
  have hunaccepted : ∀ rest, ¬ Accepts noAck maxAttempts bytes rest :=
    fun rest haccepts => nomatch h.accepts_iff.mp haccepts
  have hother : e ≠ .malformed (.checksums maxAttempts) ∧ e ≠ .oversized packetLimit := by
    rcases h.error_cases rfl with rfl | rfl
    · exact ⟨nofun, nofun⟩
    · cases ending <;> exact ⟨nofun, nofun⟩
  exact {
    silent := fun hmode => by rw [h.sent_once hmode]; rfl
    spoken := fun hmode =>
      ⟨0, [], by rw [h.sendings_eq hmode]; rfl, Nat.zero_le _, .inl rfl⟩
    rejected := fun hmode => by
      rw [take_signals_iff, ← h.rejected_iff hmode, Except.error.injEq, Except.error.injEq]
    garbled := fun _ => iff_of_false (fun hresult => hother.1 (Except.error.inj hresult))
      (fun ⟨rest, _, haccepts, _⟩ => hunaccepted rest haccepts)
    oversized := iff_of_false (fun hresult => hother.2 (Except.error.inj hresult))
      (fun ⟨rest, haccepts, _⟩ => hunaccepted rest haccepts) }

/-- Behind a delivery, what is met is met by the receipt. -/
theorem effort_of_receives {rest : List UInt8} {us : List Transmission}
    {told : Except LinkError String} (payload : String)
    (h : Delivers noAck ending maxAttempts bytes n (.ok ()) rest)
    (hreceives : Receives noAck ending maxAttempts rest us told unread) :
    Effort noAck payload bytes (List.replicate n (.packet payload) ++ us)
      (told.bind Reply.expand) := by
  have haccepted : ∀ {behind}, Accepts noAck maxAttempts bytes behind ↔ behind = rest :=
    h.accepts_iff.trans ⟨fun hrest => hrest.2.symm, fun hrest => ⟨rfl, hrest.symm⟩⟩
  exact {
    silent := fun hmode => by rw [h.sent_once hmode, hreceives.silent hmode]; rfl
    spoken := fun hmode => by
      obtain ⟨naks, acks, hus, hanswers⟩ := hreceives.exists_answers
      exact ⟨naks, acks, by rw [h.sendings_eq hmode, hus], hanswers⟩
    rejected := fun hmode => by
      refine (bind_expand_eq_error_iff (by rintro text ⟨⟩)).trans ?_
      rw [take_signals_iff, ← h.rejected_iff hmode]
      exact iff_of_false (hreceives.ne_rejected maxAttempts) nofun
    garbled := fun hmode => by
      refine (bind_expand_eq_error_iff (by rintro text ⟨⟩)).trans ?_
      simp only [hreceives.checksums_iff hmode, haccepted]
      exact ⟨fun ⟨unread, hrow⟩ => ⟨rest, unread, rfl, hrow⟩,
        fun ⟨_, unread, hrest, hrow⟩ => ⟨unread, hrest ▸ hrow⟩⟩
    oversized := by
      refine (bind_expand_eq_error_iff (by rintro text ⟨⟩)).trans ?_
      simp only [hreceives.oversized_iff, haccepted, exists_eq_left] }

end Delivers

/-! ## The store of a payload -/

/-- The bytes of a payload that are kept so far, for which there is no more room than the
limit. -/
structure Store where
  kept : List UInt8
  bounded : kept.length ≤ packetLimit

namespace Store

def empty : Store := ⟨[], Nat.zero_le _⟩

def keep (store : Store) (b : UInt8) (room : store.kept.length < packetLimit) : Store :=
  ⟨store.kept ++ [b], by rw [List.length_append]; exact room⟩

/-- Taking the bytes of a payload one after another, as long as there is room for them. -/
def fill (store : Store) : List UInt8 → Payload
  | [] => .ended
  | b :: rest =>
    if b = packetEnd then .complete store.kept rest
    else if room : store.kept.length < packetLimit then (store.keep b room).fill rest
    else .oversized rest

theorem fill_eq (store : Store) (bytes : List UInt8) :
    store.fill bytes =
      store.kept.foldr Payload.cons (takePayload (packetLimit - store.kept.length) bytes) := by
  have hended : ∀ kept : List UInt8, kept.foldr Payload.cons .ended = .ended := by
    intro kept
    induction kept with
    | nil => rfl
    | cons b kept ih => rw [List.foldr_cons, ih]; rfl
  have hoversized : ∀ kept rest : List UInt8,
      kept.foldr Payload.cons (.oversized rest) = .oversized rest := by
    intro kept rest
    induction kept with
    | nil => rfl
    | cons b kept ih => rw [List.foldr_cons, ih]; rfl
  have hcomplete : ∀ kept rest : List UInt8,
      kept.foldr Payload.cons (.complete [] rest) = .complete kept rest := by
    intro kept rest
    induction kept with
    | nil => rfl
    | cons b kept ih => rw [List.foldr_cons, ih]; rfl
  induction bytes generalizing store with
  | nil => rw [fill, takePayload.eq_def, hended]
  | cons b rest ih =>
      rw [fill, takePayload.eq_def]
      dsimp only
      by_cases hb : b = packetEnd
      · rw [if_pos hb, if_pos hb, hcomplete]
      rw [if_neg hb, if_neg hb]
      by_cases room : store.kept.length < packetLimit
      · have hroom : packetLimit - store.kept.length =
            packetLimit - (store.keep b room).kept.length + 1 := by
          simp only [keep, List.length_append, List.length_singleton]
          omega
        rw [dif_pos room, hroom, ih]
        exact List.foldr_append
      · have hroom : packetLimit - store.kept.length = 0 := by omega
        rw [dif_neg room, hroom, hoversized]

end Store

/-- A payload is received by way of a store. -/
theorem takePacket_eq_fill (bytes : List UInt8) :
    takePacket bytes = (Store.empty.fill (seekPacket bytes)).arrival := by
  rw [Store.fill_eq]
  rfl

/-! ## Any peer -/

/-- **An exchange is a bounded effort**, whatever the peer sends and whenever. It reads a
part of the stream, byte by byte from the front, and comes to an end; the stream alone
decides how often the command is sent and which limit is met; and a payload is received
by way of a store that has no room for more bytes than the limit. -/
theorem exchange_bounded {π : Type} [Peer π] (s : Session π) (hconnected : s.connected = true)
    (payload : String) :
    (∃ ts read result s', (Exchange.exchange payload).conduct s = (result, s') ∧
      Advances s ts read s' ∧ Effort s.noAck payload (s.stream ts) ts result) ∧
    ∀ bytes, takePacket bytes = (Store.empty.fill (seekPacket bytes)).arrival := by
  refine ⟨?_, takePacket_eq_fill⟩
  obtain ⟨n, us, read, result, s', hconduct, hadvances, hexchanges⟩ :=
    Exchange.exists_exchanges payload hconnected
  refine ⟨_, read, result, s', hconduct, hadvances, ?_⟩
  cases hexchanges with
  | undelivered delivery => exact delivery.effort_of_error payload
  | delivered delivery receipt => exact delivery.effort_of_receives payload receipt

/-- A peer that refuses three times, with noise in between, is not asked again. -/
theorem exchange_bounded_of_refusals :
    ((Exchange.exchange "g").conduct
      (Session.fresh "" [0x2D, 0x78, 0x2D, 0x2D, 0x24] .closed ())).1 = .error (.rejected 3) := by
  let s : Session Unit := Session.fresh "" [0x2D, 0x78, 0x2D, 0x2D, 0x24] .closed ()
  obtain ⟨⟨ts, read, result, s', hconduct, -, heffort⟩, -⟩ := exchange_bounded s rfl "g"
  have hrefused : (signals (s.stream ts)).take maxAttempts = List.replicate maxAttempts 0x2D := by
    rw [Session.stream_unit]
    decide
  rw [hconduct]
  exact (heffort.rejected rfl).mpr hrefused

end AvrConformance.Link
