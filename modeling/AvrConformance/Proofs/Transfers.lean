import AvrConformance.Proofs.Hexadecimal
import AvrConformance.Proofs.Link.Service
import AvrConformance.Proofs.Machine
import AvrConformance.Proofs.Refinement

/-!
# Transfers of memory

Memory is moved in pieces, one command each, and the pieces of a transfer lie one behind
the other. Against a stub over a machine that holds a byte at every address, a write
therefore comes to a single write of all the data (`writeMemory_of_inStep`), and a read to
a single read (`readMemory_of_inStep`), wherever the pieces end and the addresses wrap. On
top of that, the blocks of a region are found again where they were written
(`blocks_round_trip`).
-/

namespace AvrConformance

open Link (maxTransfer)

variable {σ ω : Type}

/-- The machine holds a byte of memory at every address: as much as one command moves is
stored where it is to go, and told as it is. -/
structure Machine.HoldsMemory (μ : Machine σ) (memory : σ → Memory) : Prop where
  stores : ∀ address (data : List UInt8) x, data.length ≤ maxTransfer →
    (μ.serve (.writeMemory address data) x).1 = .ok () ∧
    memory (μ.serve (.writeMemory address data) x).2 = (memory x).write address data
  tells : ∀ address count x, count ≤ maxTransfer →
    (μ.serve (.readMemory address count) x).1 = .ok ((memory x).read address count) ∧
    memory (μ.serve (.readMemory address count) x).2 = memory x

/-- A machine that has nothing but memory, and stands still. -/
def Memory.machine : Machine Memory where
  serve
    | .readMemory address count, m => (.ok (m.read address count), m)
    | .writeMemory address data, m => (.ok (), m.write address data)
    | .readRegisters, m => (.ok .zero, m)
    | .writeRegisters _, m => (.ok (), m)
    | .resume _, m => (.ok (.signal Stop.trap), m)
    | .step, m => (.ok (.signal Stop.trap), m)
    | .close, m => (.ok (), m)
  lastStop _ := .signal Stop.trap

theorem Memory.machine_holdsMemory : Memory.machine.HoldsMemory id where
  stores _ _ _ _ := ⟨rfl, rfl⟩
  tells _ _ _ _ := ⟨rfl, rfl⟩

namespace Link

/-! ## Replies with data -/

/-- A row of bytes that is spelled is no error, and is taken for the bytes. -/
theorem bytes_of_spells {bytes : List UInt8} {text : List Char}
    (h : Text.Hex.Spells bytes text) :
    Reply.isError (String.ofList text) = false ∧
      Reply.bytes (String.ofList text) = .ok bytes := by
  have hlength := h.length_eq
  refine ⟨isError_of_length (by omega), ?_⟩
  rwa [Reply.bytes_eq_ok_iff, String.toList_ofList]

/-- So is what it arrives as, once the runs are expanded. -/
theorem bytes_of_renders {bytes : List UInt8} {encoded : List Char}
    (h : Renders (.data bytes) encoded) :
    ∃ text, Reply.expand (String.ofList encoded) = .ok text ∧
      Reply.isError text = false ∧ Reply.bytes text = .ok bytes := by
  obtain ⟨text, hsaid, hexpand⟩ := h.expand
  cases hsaid with
  | data spelling => exact ⟨_, hexpand, bytes_of_spells spelling⟩

/-! ## Pieces -/

variable {μ : Machine σ} {m : Manner ω} {memory : σ → Memory} {s : Session (Stub μ m)} {x : σ}

open Exchange (transact ofExcept)

/-- The machine performs a command that it cannot fail at, and the session goes on with what
the reply is taken for. -/
theorem conduct_piece {α : Type} (h : InStep s x) (c : Command) (hc : c ≠ .startNoAck)
    {r : Response} {y : σ} (hperform : ∀ granting, μ.perform granting c x = (r, y))
    (hshort : r.Short) (decode : String → Except LinkError α) {a : α}
    (hdecode : ∀ text, Says r text → decode (String.ofList text) = .ok a) :
    ∃ s', InStep s' y ∧ ∀ {β : Type} (next : α → Exchange (Stub μ m) β),
      (transact c >>= fun reply => ofExcept (decode reply) >>= next).conduct s =
        (next a).conduct s' := by
  obtain ⟨text, s', htransact, hsaid, hstep⟩ := transact_of_inStep h hc fun granting => by
    rw [hperform]
    exact hshort
  rw [hperform] at hsaid hstep
  refine ⟨s', hstep, fun next => ?_⟩
  rw [Exchange.conduct_bind, htransact]
  dsimp only
  rw [Exchange.conduct_bind, hdecode text hsaid, Exchange.conduct_ofExcept]

/-- One command writes its piece. -/
theorem write_piece (hμ : μ.HoldsMemory memory) (h : InStep s x) (address : UInt32)
    {data : List UInt8} (hfew : data.length ≤ maxTransfer) :
    ∃ s' x', InStep s' x' ∧ memory x' = (memory x).write address data ∧
      ∀ {β : Type} (next : Unit → Exchange (Stub μ m) β),
        (transact (.writeMemory address data) >>= fun reply =>
          ofExcept (Reply.ok reply) >>= next).conduct s = (next ()).conduct s' := by
  obtain ⟨hserved, hwritten⟩ := hμ.stores address data x hfew
  have hperform : ∀ granting, μ.perform granting (.writeMemory address data) x =
      (.ok, (μ.serve (.writeMemory address data) x).2) :=
    fun _ => respond_of_ok (fun _ => .ok) hserved
  have hdecode : ∀ text, Says .ok text → Reply.ok (String.ofList text) = .ok () := by
    intro text hsaid
    cases hsaid
    rfl
  obtain ⟨s', hstep, hnext⟩ :=
    conduct_piece h (.writeMemory address data) (by rintro ⟨⟩) hperform trivial Reply.ok hdecode
  exact ⟨s', _, hstep, hwritten, hnext⟩

/-- One command reads its piece. -/
theorem read_piece (hμ : μ.HoldsMemory memory) (h : InStep s x) (address : UInt32)
    {count : Nat} (hfew : count ≤ maxTransfer) :
    ∃ s' x', InStep s' x' ∧ memory x' = memory x ∧
      ∀ {β : Type} (next : List UInt8 → Exchange (Stub μ m) β),
        (transact (.readMemory address count) >>= fun reply =>
          ofExcept (Reply.data reply >>= Reply.bytes) >>= next).conduct s =
            (next ((memory x).read address count)).conduct s' := by
  obtain ⟨hserved, hkept⟩ := hμ.tells address count x hfew
  have hperform : ∀ granting, μ.perform granting (.readMemory address count) x =
      (.data ((memory x).read address count), (μ.serve (.readMemory address count) x).2) :=
    fun _ => respond_of_ok .data hserved
  have hshort : (Response.data ((memory x).read address count)).Short := by
    show 2 * ((memory x).read address count).length ≤ packetLimit
    rw [Memory.length_read]
    have hlimit : 2 * maxTransfer ≤ packetLimit := by decide
    omega
  have hdecode : ∀ text, Says (.data ((memory x).read address count)) text →
      (Reply.data (String.ofList text) >>= Reply.bytes) =
        .ok ((memory x).read address count) := by
    intro text hsaid
    cases hsaid with
    | data spelling =>
        obtain ⟨hgenuine, hbytes⟩ := bytes_of_spells spelling
        rw [Reply.data, hgenuine]
        exact hbytes
  obtain ⟨s', hstep, hnext⟩ :=
    conduct_piece h (.readMemory address count) (by rintro ⟨⟩) hperform hshort
      (fun reply => Reply.data reply >>= Reply.bytes) hdecode
  exact ⟨s', _, hstep, hkept, hnext⟩

/-! ## Whole transfers -/

/-- A write comes to a single one of all the data. -/
theorem writeMemory_of_inStep (hμ : μ.HoldsMemory memory) (h : InStep s x) (address : UInt32)
    {data : List UInt8} (hfits : data.length ≤ UInt32.size) :
    ∃ s' x', (Exchange.writeMemory address data).conduct s = (.ok (), s') ∧ InStep s' x' ∧
      memory x' = (memory x).write address data := by
  -- by induction on the data left, of which a command moves some
  generalize hcount : data.length = count
  induction count using Nat.strongRecOn generalizing address data s x with
  | ind count ih =>
      subst hcount
      rcases Nat.eq_zero_or_pos data.length with hnone | hsome
      · obtain rfl := List.length_eq_zero_iff.mp hnone
        exact ⟨s, x, rfl, h, rfl⟩
      · have hless : (data.drop maxTransfer).length < data.length := by
          rw [List.length_drop]
          exact Nat.sub_lt hsome (by decide)
        obtain ⟨s₁, x₁, hstep₁, hfirst, hnext⟩ :=
          write_piece hμ h address (List.length_take_le maxTransfer data)
        obtain ⟨s₂, x₂, hrest, hstep₂, hlast⟩ := ih _ hless hstep₁
          (address + UInt32.ofNat maxTransfer) (Nat.le_trans (Nat.le_of_lt hless) hfits) rfl
        refine ⟨s₂, x₂, ?_, hstep₂, ?_⟩
        · rw [writeMemory_of_pos address hsome, hnext]
          exact hrest
        · rw [hlast, hfirst, Memory.write_split _ _ _ _ hfits]

/-- A read comes to a single one, and changes nothing. -/
theorem readMemory_of_inStep (hμ : μ.HoldsMemory memory) (h : InStep s x) (address : UInt32)
    (count : Nat) :
    ∃ s' x', (Exchange.readMemory address count).conduct s =
        (.ok ((memory x).read address count), s') ∧ InStep s' x' ∧ memory x' = memory x := by
  induction count using Nat.strongRecOn generalizing address s x with
  | ind count ih =>
      rcases Nat.eq_zero_or_pos count with rfl | hsome
      · exact ⟨s, x, rfl, h, rfl⟩
      · obtain ⟨s₁, x₁, hstep₁, hkept₁, hnext⟩ :=
          read_piece hμ h address (Nat.min_le_left maxTransfer count)
        obtain ⟨s₂, x₂, hrest, hstep₂, hkept₂⟩ := ih (count - maxTransfer)
          (Nat.sub_lt hsome (by decide)) hstep₁ (address + UInt32.ofNat maxTransfer)
        refine ⟨s₂, x₂, ?_, hstep₂, hkept₂.trans hkept₁⟩
        rw [readMemory_of_pos address hsome, hnext, if_pos (Memory.length_read _ _ _),
          Exchange.conduct_bind, hrest, hkept₁]
        simp only [Exchange.conduct_pure, Memory.read_split]

end Link

/-! ## Blocks -/

open Link (Session Stub Manner Ending InStep Renders)

variable {μ : Machine σ} {m : Manner ω} {memory : σ → Memory} {s : Session (Stub μ m)} {x : σ}

theorem conduct_writeBlock_of_inStep (hμ : μ.HoldsMemory memory) (h : InStep s x)
    (wireClock : Session (Stub μ m) → Timestamp) (region : Region) (address : UInt32)
    {data : List UInt8} (hfits : data.length ≤ UInt32.size) :
    ∃ s' x', (Drive.writeBlock region address data).conduct
        ⟨Session.target, Session.withNote, wireClock⟩ s = (.ok (), s') ∧ InStep s' x' ∧
      memory x' = (memory x).write (region.locate address) data := by
  have hnoted := h.withNote (Drive.writeNote region address data)
  obtain ⟨s', x', hwrite, hstep, hwritten⟩ :=
    Link.writeMemory_of_inStep hμ hnoted (region.locate address) hfits
  refine ⟨s', x', ?_, hstep, hwritten⟩
  exact Drive.conduct_request_ok ⟨Session.target, Session.withNote, wireClock⟩ "writing memory"
    hwrite

theorem conduct_readBlock_of_inStep (hμ : μ.HoldsMemory memory) (h : InStep s x)
    (wireClock : Session (Stub μ m) → Timestamp) (region : Region) (address : UInt32)
    (count : Nat) :
    ∃ s' x', (Drive.readBlock region address count).conduct
        ⟨Session.target, Session.withNote, wireClock⟩ s =
          (.ok ((memory x).read (region.locate address) count), s') ∧ InStep s' x' ∧
      memory x' = memory x := by
  obtain ⟨s', x', hread, hstep, hkept⟩ :=
    Link.readMemory_of_inStep hμ h (region.locate address) count
  refine ⟨s', x', ?_, hstep, hkept⟩
  have hrequest : (Drive.request "reading memory"
      (.readMemory (region.locate address) count)).conduct
        ⟨Session.target, Session.withNote, wireClock⟩ s =
          (.ok ((memory x).read (region.locate address) count), s') :=
    Drive.conduct_request_ok _ "reading memory" hread
  rw [Drive.readBlock, Drive.conduct_bind_ok _ hrequest, if_pos (Memory.length_read _ _ _),
    Drive.conduct_pure]

/-- **Blocks there and back.** Whatever machine holds the memory, and whatever the manner of
the stub in front of it, a session that is in step with the stub writes the bytes of a block
one behind the other, from the region's base and the block's address on and around the end
of the address space, and writes no other byte; if it reads as many from there, it reads the
block. Any number of bytes is read as it is, and stays so. No reply that says bytes can be
taken for an error, or for other bytes. -/
theorem blocks_round_trip (hμ : μ.HoldsMemory memory) (h : InStep s x)
    (wireClock : Session (Stub μ m) → Timestamp) (region : Region) (address : UInt32) :
    let b : Bench (Session (Stub μ m)) := ⟨Session.target, Session.withNote, wireClock⟩
    (∀ data : List UInt8, data.length ≤ UInt32.size →
      ∃ s₁ x₁, (Drive.writeBlock region address data).conduct b s = (.ok (), s₁) ∧
        InStep s₁ x₁ ∧
        (∀ (i : Nat) (hi : i < data.length),
          memory x₁ (region.base + address + UInt32.ofNat i) = data[i]) ∧
        (∀ place, (∀ i < data.length, place ≠ region.base + address + UInt32.ofNat i) →
          memory x₁ place = memory x place) ∧
        ∃ s₂ x₂, (Drive.readBlock region address data.length).conduct b s₁ = (.ok data, s₂) ∧
          InStep s₂ x₂ ∧ memory x₂ = memory x₁) ∧
    (∀ count : Nat, ∃ s₁ x₁, (Drive.readBlock region address count).conduct b s =
        (.ok ((List.range count).map fun i =>
          memory x (region.base + address + UInt32.ofNat i)), s₁) ∧
      InStep s₁ x₁ ∧ memory x₁ = memory x) ∧
    ∀ (bytes : List UInt8) (encoded : List Char), Renders (.data bytes) encoded →
      ∃ text, Link.Reply.expand (String.ofList encoded) = .ok text ∧
        Link.Reply.isError text = false ∧ Link.Reply.bytes text = .ok bytes := by
  intro b
  refine ⟨?_, fun count => conduct_readBlock_of_inStep hμ h wireClock region address count,
    fun _ _ hrenders => Link.bytes_of_renders hrenders⟩
  intro data hfits
  obtain ⟨s₁, x₁, hwrite, hstep₁, hwritten⟩ :=
    conduct_writeBlock_of_inStep hμ h wireClock region address hfits
  obtain ⟨s₂, x₂, hread, hstep₂, hkept⟩ :=
    conduct_readBlock_of_inStep hμ hstep₁ wireClock region address data.length
  refine ⟨s₁, x₁, hwrite, hstep₁, ?_, ?_, s₂, x₂, ?_, hstep₂, hkept⟩
  · intro i hi
    rw [hwritten]
    exact (memory x).write_apply_add (region.locate address) hfits hi
  · intro place hplace
    rw [hwritten]
    exact (memory x).write_apply_of_ne hplace
  · rw [hread, hwritten, Memory.read_write _ _ hfits]

/-- A block of one byte more than a command moves, around the end of the address space, and
through a stub that was connected to just before. -/
theorem blocks_round_trip_around_end :
    let data := List.replicate 65 (0xAB : UInt8)
    let b : Bench (Session (Stub Memory.machine Manner.plain)) := Session.bench Timestamp.epoch
    ∃ s, Session.start false
        (Session.fresh "localhost:1212" [] .closed (Stub.fresh (fun _ => 0xFF) ())) = (.ok (), s) ∧
      data.length ≤ UInt32.size ∧
      ∃ s₁, (Drive.writeBlock .data 0xFF7FFFE0 data).conduct b s = (.ok (), s₁) ∧
        ∃ s₂, (Drive.readBlock .data 0xFF7FFFE0 data.length).conduct b s₁ = (.ok data, s₂) := by
  intro data b
  obtain ⟨s, hstart, hstep⟩ := Link.start_inStep (μ := Memory.machine) (m := Manner.plain) false
    "localhost:1212" .closed (fun _ => 0xFF) ()
  have hfits : data.length ≤ UInt32.size := by decide
  obtain ⟨hblocks, -⟩ := blocks_round_trip Memory.machine_holdsMemory hstep
    (fun _ => Timestamp.epoch) .data 0xFF7FFFE0
  obtain ⟨s₁, -, hwrite, -, -, -, s₂, -, hread, -⟩ := hblocks data hfits
  exact ⟨s, hstart, hfits, s₁, hwrite, s₂, hread⟩

end AvrConformance
