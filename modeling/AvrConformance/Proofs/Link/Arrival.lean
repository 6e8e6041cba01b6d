import AvrConformance.Link.Arrival
import AvrConformance.Proofs.Link.Hex

/-!
# Reading a stream

Both ways of reading pass over bytes that mean nothing to them, and neither reads
further than it has to. An acknowledgement is the first byte that can be one
(`takeAck_noise`). A packet is taken exactly if the stream opens with one, behind bytes
that do not start a packet (`takePacket_eq_packet_iff`): its payload ends at the first
end mark, and of the two bytes behind that, both are digits, or the first is a plus sign
(`trailer?_eq_some_iff`). Whatever arrives, what is left of the stream is its end, and
what was read would have arrived without it (`exists_read_of_takePacket`).
-/

namespace AvrConformance.Link

open Text.Hex (IsDigitOf)

/-! ## Acknowledgements -/

/-- Bytes among which nobody who waits for an acknowledgement finds one. -/
def Noise (bytes : List UInt8) : Prop := ∀ b ∈ bytes, b ≠ packetStart ∧ b ≠ 0x2B ∧ b ≠ 0x2D

instance (bytes : List UInt8) : Decidable (Noise bytes) := List.decidableBAll _ bytes

theorem takeAck_noise {noise : List UInt8} (h : Noise noise) (rest : List UInt8) :
    takeAck (noise ++ rest) = takeAck rest := by
  induction noise with
  | nil => rfl
  | cons b noise ih =>
      obtain ⟨hstart, hplus, hminus⟩ := h b List.mem_cons_self
      rw [List.cons_append, takeAck, if_neg hstart, if_neg hplus, if_neg hminus]
      exact ih fun c hc => h c (List.mem_cons_of_mem b hc)

/-- What is left behind an acknowledgement was there before. -/
theorem suffix_of_takeAck {bytes rest : List UInt8} {accepted : Bool}
    (h : takeAck bytes = some (accepted, rest)) : rest <:+ bytes := by
  induction bytes with
  | nil => cases h
  | cons b bytes ih =>
      rw [takeAck] at h
      split at h
      · cases h
        exact List.suffix_rfl
      split at h
      · cases h
        exact List.suffix_cons b rest
      split at h
      · cases h
        exact List.suffix_cons b rest
      · exact (ih h).trans (List.suffix_cons b bytes)

/-- A wait for an acknowledgement passes over noise to the first byte that can be one, or
else to the end. -/
theorem takeAck_cases (bytes : List UInt8) :
    ∃ noise, Noise noise ∧
      ((bytes = noise ∧ takeAck bytes = none) ∨
        ∃ rest,
          (bytes = noise ++ packetStart :: rest ∧
              takeAck bytes = some (true, packetStart :: rest)) ∨
            (bytes = noise ++ 0x2B :: rest ∧ takeAck bytes = some (true, rest)) ∨
            (bytes = noise ++ 0x2D :: rest ∧ takeAck bytes = some (false, rest))) := by
  induction bytes with
  | nil => exact ⟨[], fun b hb => absurd hb List.not_mem_nil, .inl ⟨rfl, rfl⟩⟩
  | cons b bytes ih =>
      have hnone : Noise [] := fun b hb => absurd hb List.not_mem_nil
      by_cases hstart : b = packetStart
      · subst hstart
        exact ⟨[], hnone, .inr ⟨bytes, .inl ⟨rfl, rfl⟩⟩⟩
      by_cases hplus : b = 0x2B
      · subst hplus
        exact ⟨[], hnone, .inr ⟨bytes, .inr (.inl ⟨rfl, rfl⟩)⟩⟩
      by_cases hminus : b = 0x2D
      · subst hminus
        exact ⟨[], hnone, .inr ⟨bytes, .inr (.inr ⟨rfl, rfl⟩)⟩⟩
      -- a byte that means nothing joins the noise in front of the rest
      have hskip : takeAck (b :: bytes) = takeAck bytes := by
        rw [takeAck, if_neg hstart, if_neg hplus, if_neg hminus]
      obtain ⟨noise, hnoise, hcases⟩ := ih
      refine ⟨b :: noise, List.forall_mem_cons.mpr ⟨⟨hstart, hplus, hminus⟩, hnoise⟩, ?_⟩
      rw [hskip]
      rcases hcases with ⟨hbytes, hack⟩ | ⟨rest, ⟨hbytes, hack⟩ | ⟨hbytes, hack⟩ | ⟨hbytes, hack⟩⟩
      · exact .inl ⟨by rw [hbytes], hack⟩
      · exact .inr ⟨rest, .inl ⟨by rw [hbytes]; rfl, hack⟩⟩
      · exact .inr ⟨rest, .inr (.inl ⟨by rw [hbytes]; rfl, hack⟩)⟩
      · exact .inr ⟨rest, .inr (.inr ⟨by rw [hbytes]; rfl, hack⟩)⟩

/-- Nobody finds an acknowledgement in noise, and in nothing else. -/
theorem takeAck_eq_none_iff {bytes : List UInt8} : takeAck bytes = none ↔ Noise bytes := by
  constructor
  · intro h
    obtain ⟨noise, hnoise, ⟨rfl, -⟩ | ⟨rest, ⟨-, hack⟩ | ⟨-, hack⟩ | ⟨-, hack⟩⟩⟩ :=
      takeAck_cases bytes
    · exact hnoise
    all_goals
      rw [h] at hack
      cases hack
  · intro h
    have hnone := takeAck_noise h []
    rwa [List.append_nil] at hnone

/-- A packet is accepted by a plus sign, or by the start of a packet, which stays unread. -/
theorem takeAck_eq_accepted_iff {bytes rest : List UInt8} :
    takeAck bytes = some (true, rest) ↔
      ∃ noise, Noise noise ∧ (bytes = noise ++ 0x2B :: rest ∨
        ∃ behind, rest = packetStart :: behind ∧ bytes = noise ++ rest) := by
  constructor
  · intro h
    obtain ⟨noise, hnoise, ⟨-, hack⟩ | ⟨behind, ⟨hbytes, hack⟩ | ⟨hbytes, hack⟩ | ⟨-, hack⟩⟩⟩ :=
      takeAck_cases bytes
    all_goals
      rw [h] at hack
      cases hack
    · exact ⟨noise, hnoise, .inr ⟨behind, rfl, hbytes⟩⟩
    · exact ⟨noise, hnoise, .inl hbytes⟩
  · rintro ⟨noise, hnoise, rfl | ⟨behind, rfl, rfl⟩⟩
    all_goals
      rw [takeAck_noise hnoise]
      rfl

theorem takeAck_eq_refused_iff {bytes rest : List UInt8} :
    takeAck bytes = some (false, rest) ↔ ∃ noise, Noise noise ∧ bytes = noise ++ 0x2D :: rest := by
  constructor
  · intro h
    obtain ⟨noise, hnoise, ⟨-, hack⟩ | ⟨behind, ⟨-, hack⟩ | ⟨-, hack⟩ | ⟨hbytes, hack⟩⟩⟩ :=
      takeAck_cases bytes
    all_goals
      rw [h] at hack
      cases hack
    exact ⟨noise, hnoise, hbytes⟩
  · rintro ⟨noise, hnoise, rfl⟩
    rw [takeAck_noise hnoise]
    rfl

/-- Bytes that come later do not change what is made of an acknowledgement. -/
theorem takeAck_append {bytes rest : List UInt8} {accepted : Bool}
    (h : takeAck bytes = some (accepted, rest)) (more : List UInt8) :
    takeAck (bytes ++ more) = some (accepted, rest ++ more) := by
  cases accepted with
  | true =>
      obtain ⟨noise, hnoise, rfl | ⟨behind, rfl, rfl⟩⟩ := takeAck_eq_accepted_iff.mp h
      · exact takeAck_eq_accepted_iff.mpr ⟨noise, hnoise, .inl (List.append_assoc _ _ _)⟩
      · exact takeAck_eq_accepted_iff.mpr
          ⟨noise, hnoise, .inr ⟨behind ++ more, rfl, List.append_assoc _ _ _⟩⟩
  | false =>
      obtain ⟨noise, hnoise, rfl⟩ := takeAck_eq_refused_iff.mp h
      exact takeAck_eq_refused_iff.mpr ⟨noise, hnoise, List.append_assoc _ _ _⟩

/-! ## Packets -/

theorem seekPacket_append {gap : List UInt8} (h : packetStart ∉ gap) (rest : List UInt8) :
    seekPacket (gap ++ packetStart :: rest) = rest := by
  induction gap with
  | nil => rw [List.nil_append, seekPacket, if_pos rfl]
  | cons b gap ih =>
      have hb : b ≠ packetStart := fun hb => h (hb ▸ List.mem_cons_self)
      rw [List.cons_append, seekPacket, if_neg hb]
      exact ih fun hmem => h (List.mem_cons_of_mem b hmem)

/-- A search comes to the first start of a packet, or to the end. -/
theorem seekPacket_cases (bytes : List UInt8) :
    (∃ gap, packetStart ∉ gap ∧ bytes = gap ++ packetStart :: seekPacket bytes) ∨
      packetStart ∉ bytes ∧ seekPacket bytes = [] := by
  induction bytes with
  | nil => exact .inr ⟨List.not_mem_nil, rfl⟩
  | cons b bytes ih =>
      rw [seekPacket]
      by_cases hb : b = packetStart
      · subst hb
        rw [if_pos rfl]
        exact .inl ⟨[], List.not_mem_nil, rfl⟩
      · rw [if_neg hb]
        rcases ih with ⟨gap, hfree, hbytes⟩ | ⟨hfree, hend⟩
        · refine .inl ⟨b :: gap, ?_, ?_⟩
          · exact List.not_mem_cons_of_ne_of_not_mem (Ne.symm hb) hfree
          · rw [List.cons_append, ← hbytes]
        · exact .inr ⟨List.not_mem_cons_of_ne_of_not_mem (Ne.symm hb) hfree, hend⟩

/-- A payload is taken up to its end mark. -/
theorem takePayload_append {room : Nat} {payload : List UInt8} (hfree : packetEnd ∉ payload)
    (hroom : payload.length ≤ room) (rest : List UInt8) :
    takePayload room (payload ++ packetEnd :: rest) = .complete payload rest := by
  induction payload generalizing room with
  | nil => rw [List.nil_append, takePayload.eq_def]; simp only [if_true]
  | cons b payload ih =>
      have hb : b ≠ packetEnd := fun hb => hfree (hb ▸ List.mem_cons_self)
      cases room with
      | zero => exact absurd hroom (Nat.not_succ_le_zero _)
      | succ room =>
          rw [List.cons_append, takePayload.eq_def]
          simp only [if_neg hb, ih (fun hmem => hfree (List.mem_cons_of_mem b hmem))
            (Nat.le_of_succ_le_succ hroom)]
          rfl

theorem cons_eq_complete {b : UInt8} {p : Payload} {payload rest : List UInt8}
    (h : p.cons b = .complete payload rest) :
    ∃ others, p = .complete others rest ∧ payload = b :: others := by
  cases p with
  | complete others rest' =>
      cases h
      exact ⟨others, rfl, rfl⟩
  | oversized rest' => cases h
  | ended => cases h

theorem eq_oversized_of_cons {b : UInt8} {p : Payload} {rest : List UInt8}
    (h : p.cons b = .oversized rest) : p = .oversized rest := by
  cases p with
  | complete others rest' => cases h
  | oversized rest' =>
      cases h
      rfl
  | ended => cases h

/-- A payload that was taken ends at the first end mark, and there was room for it. -/
theorem of_takePayload {room : Nat} {bytes payload rest : List UInt8}
    (h : takePayload room bytes = .complete payload rest) :
    bytes = payload ++ packetEnd :: rest ∧ packetEnd ∉ payload ∧ payload.length ≤ room := by
  induction bytes generalizing room payload with
  | nil =>
      rw [takePayload.eq_def] at h
      cases h
  | cons b bytes ih =>
      rw [takePayload.eq_def] at h
      dsimp only at h
      split at h
      · rename_i hb
        cases h
        exact ⟨by rw [hb]; rfl, List.not_mem_nil, Nat.zero_le room⟩
      · rename_i hb
        cases room with
        | zero => cases h
        | succ room =>
            obtain ⟨others, hothers, rfl⟩ := cons_eq_complete h
            obtain ⟨rfl, hfree, hroom⟩ := ih hothers
            exact ⟨rfl, List.not_mem_cons_of_ne_of_not_mem (Ne.symm hb) hfree,
              Nat.succ_le_succ hroom⟩

/-- A packet is taken exactly if the stream opens with one, as far as its trailer can be read. -/
theorem takePacket_eq_packet_iff {bytes payload rest : List UInt8} {sum : UInt8} :
    takePacket bytes = (.packet payload sum, rest) ↔
      ∃ gap high low, packetStart ∉ gap ∧
        bytes = gap ++ packetStart :: (payload ++ packetEnd :: high :: low :: rest) ∧
        packetEnd ∉ payload ∧ payload.length ≤ packetLimit ∧ trailer? high low = some sum := by
  constructor
  · intro h
    unfold takePacket at h
    split at h
    · cases h
    · cases h
    · rename_i payload' high low rest' hpayload
      obtain ⟨hbytes, hfree, hroom⟩ := of_takePayload hpayload
      split at h
      · rename_i sum' htrailer
        cases h
        rcases seekPacket_cases bytes with ⟨gap, hgap, hsplit⟩ | ⟨-, hend⟩
        · exact ⟨gap, high, low, hgap, by rw [hsplit, hbytes], hfree, hroom, htrailer⟩
        · -- an empty row does not hold an end mark
          rw [hend] at hbytes
          exact absurd hbytes (by simp)
      · cases h
    · cases h
  · rintro ⟨gap, high, low, hgap, rfl, hfree, hroom, htrailer⟩
    simp only [takePacket, seekPacket_append hgap, takePayload_append hfree hroom, htrailer]

/-- A payload goes on past the limit exactly if one byte more than there is room for comes
before its end mark. -/
theorem takePayload_eq_oversized_iff {room : Nat} {bytes rest : List UInt8} :
    takePayload room bytes = .oversized rest ↔
      ∃ long, bytes = long ++ rest ∧ packetEnd ∉ long ∧ long.length = room + 1 := by
  induction bytes generalizing room with
  | nil =>
      rw [takePayload.eq_def]
      refine iff_of_false nofun ?_
      rintro ⟨long, hbytes, -, hlength⟩
      rw [(List.append_eq_nil_iff.mp hbytes.symm).1] at hlength
      exact absurd hlength (Nat.succ_ne_zero room).symm
  | cons b bytes ih =>
      rw [takePayload.eq_def]
      dsimp only
      by_cases hb : b = packetEnd
      · rw [if_pos hb]
        refine iff_of_false nofun ?_
        rintro ⟨long, hbytes, hfree, hlength⟩
        obtain ⟨c, long, rfl⟩ := List.exists_cons_of_length_eq_add_one hlength
        obtain ⟨rfl, -⟩ := List.cons.inj hbytes
        exact hfree (hb ▸ List.mem_cons_self)
      · rw [if_neg hb]
        cases room with
        | zero =>
            constructor
            · intro h
              injection h with hrest
              exact ⟨[b], by rw [hrest]; rfl,
                List.not_mem_cons_of_ne_of_not_mem (Ne.symm hb) List.not_mem_nil, rfl⟩
            · rintro ⟨long, hbytes, -, hlength⟩
              obtain ⟨c, rfl⟩ := List.length_eq_one_iff.mp hlength
              obtain ⟨-, rfl⟩ := List.cons.inj hbytes
              rfl
        | succ room =>
            constructor
            · intro h
              obtain ⟨long, rfl, hfree, hlength⟩ := ih.mp (eq_oversized_of_cons h)
              exact ⟨b :: long, rfl, List.not_mem_cons_of_ne_of_not_mem (Ne.symm hb) hfree,
                congrArg Nat.succ hlength⟩
            · rintro ⟨long, hbytes, hfree, hlength⟩
              obtain ⟨c, long, rfl⟩ := List.exists_cons_of_length_eq_add_one hlength
              obtain ⟨rfl, hrest⟩ := List.cons.inj hbytes
              have hover := ih.mpr ⟨long, hrest, fun hmem => hfree (List.mem_cons_of_mem b hmem),
                Nat.succ.inj hlength⟩
              exact congrArg (Payload.cons b) hover

/-- A payload that goes on past the limit is known for it by the bytes up to there. -/
theorem exists_read_of_oversized {room : Nat} {bytes rest : List UInt8}
    (h : takePayload room bytes = .oversized rest) :
    ∃ read, bytes = read ++ rest ∧ takePayload room read = .oversized [] := by
  obtain ⟨long, hbytes, hfree, hlength⟩ := takePayload_eq_oversized_iff.mp h
  have halone : long = long ++ [] := (List.append_nil long).symm
  exact ⟨long, hbytes, takePayload_eq_oversized_iff.mpr ⟨long, halone, hfree, hlength⟩⟩

/-- What a payload and the bytes behind it come to. -/
def Payload.arrival : Payload → Arrival × List UInt8
  | ended => (.ended, [])
  | oversized rest => (.oversized, rest)
  | complete payload (high :: low :: rest) =>
    match trailer? high low with
    | some sum => (.packet payload sum, rest)
    | none => (.noTrailer, rest)
  | complete _ _ => (.ended, [])

theorem takePacket_eq (bytes : List UInt8) :
    takePacket bytes = (takePayload packetLimit (seekPacket bytes)).arrival := rfl

/-- The stream has ended only when all of it is read. -/
theorem eq_nil_of_arrival_ended {p : Payload} {rest : List UInt8} (h : p.arrival = (.ended, rest)) :
    rest = [] := by
  match p, h with
  | .ended, h => exact (congrArg Prod.snd h).symm
  | .oversized _, h => cases h
  | .complete _ [], h => exact (congrArg Prod.snd h).symm
  | .complete _ [_], h => exact (congrArg Prod.snd h).symm
  | .complete _ (_ :: _ :: _), h =>
      rw [Payload.arrival] at h
      split at h <;> cases h

/-- A payload that is complete is not too long. -/
theorem arrival_complete_ne_oversized (payload bytes rest : List UInt8) :
    (Payload.complete payload bytes).arrival ≠ (.oversized, rest) := by
  match bytes with
  | [] => exact nofun
  | [_] => exact nofun
  | high :: low :: left =>
      rw [Payload.arrival]
      cases trailer? high low <;> exact nofun

/-- The bytes up to the end of what arrives make the same of it by themselves. -/
theorem exists_read_of_arrival {bytes rest : List UInt8} {a : Arrival}
    (h : (takePayload packetLimit bytes).arrival = (a, rest)) :
    ∃ read, bytes = read ++ rest ∧ (takePayload packetLimit read).arrival = (a, []) := by
  have hall : rest = [] → ∃ read, bytes = read ++ rest ∧
      (takePayload packetLimit read).arrival = (a, []) := by
    rintro rfl
    exact ⟨bytes, (List.append_nil bytes).symm, h⟩
  match hpayload : takePayload packetLimit bytes with
  | .ended =>
      rw [hpayload] at h
      exact hall (congrArg Prod.snd h).symm
  | .oversized left =>
      rw [hpayload] at h
      cases h
      obtain ⟨read, hbytes, hover⟩ := exists_read_of_oversized hpayload
      exact ⟨read, hbytes, by rw [hover]; rfl⟩
  | .complete payload [] =>
      rw [hpayload] at h
      exact hall (congrArg Prod.snd h).symm
  | .complete payload [_] =>
      rw [hpayload] at h
      exact hall (congrArg Prod.snd h).symm
  | .complete payload (high :: low :: left) =>
      obtain ⟨hbytes, hfree, hroom⟩ := of_takePayload hpayload
      refine ⟨payload ++ [packetEnd, high, low], ?_, ?_⟩
      · have hleft : rest = left := by
          rw [hpayload, Payload.arrival] at h
          split at h <;> exact (congrArg Prod.snd h).symm
        rw [hbytes, hleft]
        simp only [List.append_assoc, List.cons_append, List.nil_append]
      · have hfirst := congrArg Prod.fst h
        rw [hpayload, Payload.arrival] at hfirst
        rw [takePayload_append hfree hroom [high, low], Payload.arrival]
        cases htrailer : trailer? high low with
        | none =>
            rw [htrailer] at hfirst
            exact Prod.ext hfirst rfl
        | some sum =>
            rw [htrailer] at hfirst
            exact Prod.ext hfirst rfl

/-- Nothing behind a packet is read. -/
theorem exists_read_of_takePacket {bytes rest : List UInt8} {a : Arrival}
    (h : takePacket bytes = (a, rest)) :
    ∃ read, bytes = read ++ rest ∧ takePacket read = (a, []) := by
  rcases seekPacket_cases bytes with ⟨gap, hgap, hsplit⟩ | ⟨-, hnone⟩
  · obtain ⟨read, hseek, hread⟩ := exists_read_of_arrival h
    refine ⟨gap ++ packetStart :: read, ?_, ?_⟩
    · rw [hsplit, hseek, List.append_assoc]
      rfl
    · rw [takePacket_eq, seekPacket_append hgap, hread]
  · -- without a start of a packet all is passed over
    have hended : takePacket bytes = (.ended, []) := by
      rw [takePacket, hnone]
      rfl
    rw [hended] at h
    cases h
    exact ⟨bytes, (List.append_nil bytes).symm, hended⟩

/-- Bytes that come later do not change what is made of a packet. -/
theorem takePacket_append {bytes rest : List UInt8} {a : Arrival}
    (h : takePacket bytes = (a, rest)) (hgoes : a ≠ .ended) (more : List UInt8) :
    takePacket (bytes ++ more) = (a, rest ++ more) := by
  rw [takePacket_eq] at h
  rcases seekPacket_cases bytes with ⟨gap, hgap, hsplit⟩ | ⟨-, hnone⟩
  · have hseek : seekPacket (bytes ++ more) = seekPacket bytes ++ more := by
      have hlonger := seekPacket_append hgap (seekPacket bytes ++ more)
      rwa [← List.cons_append, ← List.append_assoc, ← hsplit] at hlonger
    rw [takePacket_eq, hseek]
    match hpayload : takePayload packetLimit (seekPacket bytes) with
    | .ended =>
        rw [hpayload] at h
        exact absurd (congrArg Prod.fst h).symm hgoes
    | .oversized left =>
        rw [hpayload] at h
        cases h
        obtain ⟨long, hbytes, hfree, hlength⟩ := takePayload_eq_oversized_iff.mp hpayload
        have hover : takePayload packetLimit (seekPacket bytes ++ more) =
            .oversized (rest ++ more) :=
          takePayload_eq_oversized_iff.mpr ⟨long, by rw [hbytes, List.append_assoc], hfree, hlength⟩
        rw [hover]
        rfl
    | .complete payload [] =>
        rw [hpayload] at h
        exact absurd (congrArg Prod.fst h).symm hgoes
    | .complete payload [_] =>
        rw [hpayload] at h
        exact absurd (congrArg Prod.fst h).symm hgoes
    | .complete payload (high :: low :: left) =>
        obtain ⟨hbytes, hfree, hroom⟩ := of_takePayload hpayload
        have hcomplete : takePayload packetLimit (seekPacket bytes ++ more) =
            .complete payload (high :: low :: (left ++ more)) := by
          rw [hbytes, List.append_assoc]
          exact takePayload_append hfree hroom _
        rw [hpayload, Payload.arrival] at h
        rw [hcomplete, Payload.arrival]
        cases htrailer : trailer? high low with
        | none =>
            rw [htrailer] at h
            cases h
            rfl
        | some sum =>
            rw [htrailer] at h
            cases h
            rfl
  · -- without a start of a packet the stream is at its end
    rw [hnone] at h
    exact absurd (congrArg Prod.fst h).symm hgoes

/-- A packet is too long exactly if one byte more than the limit comes before its end mark. -/
theorem takePacket_eq_oversized_iff {bytes rest : List UInt8} :
    takePacket bytes = (.oversized, rest) ↔
      ∃ gap long, packetStart ∉ gap ∧ bytes = gap ++ packetStart :: (long ++ rest) ∧
        packetEnd ∉ long ∧ long.length = packetLimit + 1 := by
  rw [takePacket_eq]
  constructor
  · intro h
    rcases seekPacket_cases bytes with ⟨gap, hgap, hsplit⟩ | ⟨-, hnone⟩
    · match hpayload : takePayload packetLimit (seekPacket bytes) with
      | .ended =>
          rw [hpayload] at h
          cases h
      | .oversized left =>
          rw [hpayload] at h
          cases h
          obtain ⟨long, hbytes, hfree, hlength⟩ := takePayload_eq_oversized_iff.mp hpayload
          exact ⟨gap, long, hgap, by rw [hsplit, hbytes], hfree, hlength⟩
      | .complete payload left =>
          rw [hpayload] at h
          exact absurd h (arrival_complete_ne_oversized payload left rest)
    · rw [hnone] at h
      cases h
  · rintro ⟨gap, long, hgap, rfl, hfree, hlength⟩
    rw [seekPacket_append hgap, takePayload_eq_oversized_iff.mpr ⟨long, rfl, hfree, hlength⟩]
    rfl

/-! ## Trailers -/

/-- Two bytes are the digits of a checksum, in either case. -/
def Digits (sum high low : UInt8) : Prop :=
  IsDigitOf (sum.toNat / 16) (Char.ofNat high.toNat) ∧ IsDigitOf sum.toNat (Char.ofNat low.toNat)

/-- Two bytes are a plus sign and the one digit that a small checksum needs. -/
def SignedDigit (sum high low : UInt8) : Prop :=
  high = 0x2B ∧ sum.toNat < 16 ∧ IsDigitOf sum.toNat (Char.ofNat low.toNat)

/-- A plus sign is not a digit. -/
theorem Digits.ne_plus {sum high low : UInt8} (h : Digits sum high low) : high ≠ 0x2B := by
  rintro rfl
  have hdigit := Text.Hex.isDigit_of_isDigitOf h.1
  exact absurd hdigit (by decide)

/-- A byte stands for the character of its code. -/
theorem toNat_ofNat_byte (b : UInt8) : (Char.ofNat b.toNat).toNat = b.toNat := by
  have hbyte : b.toNat < 256 := b.toNat_lt
  have hvalid : b.toNat.isValidChar := .inl (by omega)
  rw [Char.ofNat, dif_pos hvalid]
  rfl

theorem trailer?_eq_some_iff {high low sum : UInt8} :
    trailer? high low = some sum ↔ Digits sum high low ∨ SignedDigit sum high low := by
  have hplus : Char.ofNat high.toNat = '+' ↔ high = 0x2B := by
    constructor
    · intro h
      have hcode := congrArg Char.toNat h
      rw [toNat_ofNat_byte] at hcode
      exact UInt8.toNat_inj.mp hcode
    · rintro rfl
      rfl
  rw [trailer?, Text.Hex.lenientByte?_eq_some_iff, hplus]
  rfl

end AvrConformance.Link
