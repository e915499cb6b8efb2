import Obz.Transport.TcpSocket

/-!
# Large transfers over the two backends

POSIX passes the length of a native call as a `size_t`, Winsock as an `int`, and
there a longer one is refused before the call. `send_all` and `receive_exactly`
offer all that is left to every call, so the refusal comes first or never.
-/
namespace Obz.Transport

open Foundation

inductive Platform where
  | posix
  | winsock
  deriving DecidableEq, Repr

/-- `std::numeric_limits<int>::max()` -/
def intMax : ℕ := 2 ^ 31 - 1

def exceedsLimit : Error := .invalidArgument "socket operation size exceeds Winsock limit"

def checkedSocketSize (size : ℕ) : Except Error ℕ :=
  if size > intMax then .error exceedsLimit else .ok size

namespace Platform

/-- The length that `send_tcp` and `receive_tcp` pass on. -/
def nativeSize : Platform → ℕ → Except Error ℕ
  | .posix, size => .ok size
  | .winsock, size => checkedSocketSize size

/-- A request reaches the kernel if its length can be passed on. -/
def ask {ρ α : Type*} (platform : Platform) (size : ρ → ℕ) : Next ρ α → Next ρ α
  | .native request =>
    match platform.nativeSize (size request) with
    | .ok _ => .native request
    | .error e => .throws e
  | .returns value => .returns value
  | .throws e => .throws e

end Platform

variable {β : Type*}

def SendAll.nextOn (platform : Platform) (l : SendAll β) (socket : TcpSocket) :
    Next (List β) Unit :=
  platform.ask List.length (l.next socket)

def ReceiveExactly.nextOn (platform : Platform) (l : ReceiveExactly) (socket : TcpSocket) :
    Next Span ReceiveResult :=
  platform.ask Span.size (l.next socket)

/-- A connection on which every native call transfers something, and at most what it was
asked to. What the calls transfer depends on their number and on the length asked for. -/
structure Chunking (β : Type*) where
  accepts : ℕ → ℕ → ℕ
  delivers : ℕ → ℕ → List β
  accepts_le : ∀ calls size, 0 < size → 0 < accepts calls size ∧ accepts calls size ≤ size
  delivers_le : ∀ calls size, 0 < size →
    0 < (delivers calls size).length ∧ (delivers calls size).length ≤ size

/-- The loop of `send_all`, with the bytes handed over so far. -/
def SendAll.run (platform : Platform) (socket : TcpSocket) (chunking : Chunking β) :
    ℕ → ℕ → SendAll β → List β → Option (Except Error Unit × List β)
  | 0, _, _, _ => none
  | fuel + 1, calls, l, handed =>
    match l.nextOn platform socket with
    | .returns value => some (.ok value, handed)
    | .throws e => some (.error e, handed)
    | .native remaining =>
      let count := chunking.accepts calls remaining.length
      match l.resume (.transferred count) with
      | .error e => some (.error e, handed ++ remaining.take count)
      | .ok l' => run platform socket chunking fuel (calls + 1) l' (handed ++ remaining.take count)

def sendAll (platform : Platform) (socket : TcpSocket) (chunking : Chunking β) (fuel : ℕ)
    (data : List β) : Option (Except Error Unit × List β) :=
  SendAll.run platform socket chunking fuel 0 { data } []

/-- The loop of `receive_exactly`, with the bytes received so far. -/
def ReceiveExactly.run (platform : Platform) (socket : TcpSocket) (chunking : Chunking β) :
    ℕ → ℕ → ReceiveExactly → Memory β → List β →
      Option (Except Error ReceiveResult × Memory β × List β)
  | 0, _, _, _, _ => none
  | fuel + 1, calls, l, memory, received =>
    match l.nextOn platform socket with
    | .returns value => some (.ok value, memory, received)
    | .throws e => some (.error e, memory, received)
    | .native destination =>
      let bytes := chunking.delivers calls destination.size
      let memory := memory.write destination.start bytes
      match l.resume (.transferred bytes.length) with
      | .error e => some (.error e, memory, received ++ bytes)
      | .ok (.inr result) => some (.ok result, memory, received ++ bytes)
      | .ok (.inl l') =>
        run platform socket chunking fuel (calls + 1) l' memory (received ++ bytes)

def receiveExactly (platform : Platform) (socket : TcpSocket) (chunking : Chunking β) (fuel : ℕ)
    (destination : Span) (memory : Memory β) :
    Option (Except Error ReceiveResult × Memory β × List β) :=
  match ReceiveExactly.enter destination with
  | .error e => some (.error e, memory, [])
  | .ok l => ReceiveExactly.run platform socket chunking fuel 0 l memory []

/-! ### Lengths that a platform can pass on -/

/-- The platform can pass on this length. -/
def Platform.Fits (platform : Platform) (size : ℕ) : Prop := platform = .winsock → size ≤ intMax

namespace Platform

variable {platform : Platform} {size : ℕ}

theorem Fits.mono {size' : ℕ} (h : platform.Fits size) (hle : size' ≤ size) :
    platform.Fits size' :=
  fun hp => hle.trans (h hp)

theorem nativeSize_of_fits (h : platform.Fits size) : platform.nativeSize size = .ok size := by
  cases platform with
  | posix => rfl
  | winsock => exact if_neg (Nat.not_lt.mpr (h rfl))

theorem nativeSize_of_exceeds (h : intMax < size) :
    Platform.winsock.nativeSize size = .error exceedsLimit :=
  if_pos h

variable {ρ α : Type*} {length : ρ → ℕ} {request : ρ}

theorem ask_of_fits (h : platform.Fits (length request)) :
    platform.ask length (.native request : Next ρ α) = .native request := by
  simp only [ask, nativeSize_of_fits h]

theorem ask_of_exceeds (h : intMax < length request) :
    Platform.winsock.ask length (.native request : Next ρ α) = .throws exceedsLimit := by
  simp only [ask, nativeSize_of_exceeds h]

end Platform

variable {platform : Platform} {socket : TcpSocket} {chunking : Chunking β}

/-! ### Sending -/

/-- From any point of the loop, the rest is handed over in order. -/
theorem SendAll.run_of_fits (hopen : socket.isOpen = true) {fuel calls : ℕ} {l : SendAll β}
    (hfits : platform.Fits l.data.length) (hle : l.bytesSent ≤ l.data.length)
    (hfuel : l.data.length - l.bytesSent < fuel) :
    SendAll.run platform socket chunking fuel calls l (l.data.take l.bytesSent) =
      some (.ok (), l.data) := by
  induction fuel generalizing calls l with
  | zero => omega
  | succ fuel ih =>
    rcases Nat.lt_or_ge l.bytesSent l.data.length with hlt | hge
    · have hleft : (l.data.drop l.bytesSent).length = l.data.length - l.bytesSent :=
        List.length_drop
      obtain ⟨hpos, hcount⟩ := chunking.accepts_le calls (l.data.drop l.bytesSent).length (by omega)
      have hnext : l.nextOn platform socket = .native (l.data.drop l.bytesSent) := by
        rw [SendAll.nextOn, SendAll.next_of_lt hopen hlt]
        exact Platform.ask_of_fits (hfits.mono (by omega))
      have hresume : l.resume
          (.transferred (chunking.accepts calls (l.data.drop l.bytesSent).length)) =
            .ok { l with
              bytesSent := l.bytesSent +
                chunking.accepts calls (l.data.drop l.bytesSent).length } :=
        SendAll.resume_of_pos hpos
      have hhanded : l.data.take l.bytesSent ++ (l.data.drop l.bytesSent).take
          (chunking.accepts calls (l.data.drop l.bytesSent).length) =
          l.data.take (l.bytesSent + chunking.accepts calls (l.data.drop l.bytesSent).length) :=
        List.take_add.symm
      simp only [SendAll.run, hnext, hresume, hhanded]
      exact ih hfits (by simp only; omega) (by simp only; omega)
    · have hnext : l.nextOn platform socket = .returns () := by
        rw [SendAll.nextOn, SendAll.next_of_ge hge]
        rfl
      simp only [SendAll.run, hnext, List.take_of_length_le hge]

theorem sendAll_of_fits (hopen : socket.isOpen = true) {fuel : ℕ} {data : List β}
    (hfits : platform.Fits data.length) (hfuel : data.length < fuel) :
    sendAll platform socket chunking fuel data = some (.ok (), data) :=
  SendAll.run_of_fits (l := { data }) hopen hfits (Nat.zero_le _) hfuel

theorem sendAll_of_exceeds (hopen : socket.isOpen = true) {fuel : ℕ} {data : List β}
    (hexceeds : intMax < data.length) (hfuel : data.length < fuel) :
    sendAll .winsock socket chunking fuel data = some (.error exceedsLimit, []) := by
  obtain ⟨fuel, rfl⟩ := Nat.exists_eq_add_of_lt hfuel
  have hlt : ({ data } : SendAll β).bytesSent < data.length := by
    simp only
    omega
  have hnext : ({ data } : SendAll β).nextOn .winsock socket = .throws exceedsLimit := by
    rw [SendAll.nextOn, SendAll.next_of_lt hopen hlt]
    exact Platform.ask_of_exceeds (by simpa using hexceeds)
  simp only [sendAll, SendAll.run, hnext]

/-! ### Receiving -/

theorem Platform.ask_eq_posix {ρ α : Type*} {length : ρ → ℕ} {next : Next ρ α}
    (h : ∀ request, next = .native request → platform.Fits (length request)) :
    platform.ask length next = Platform.posix.ask length next := by
  cases next with
  | native request =>
    have hposix : Platform.posix.Fits (length request) := nofun
    rw [ask_of_fits (h request rfl), ask_of_fits hposix]
  | returns value => rfl
  | throws e => rfl

theorem ReceiveExactly.nextOn_eq_posix {l : ReceiveExactly} (hopen : socket.isOpen = true)
    (hfits : platform.Fits l.destination.size) :
    l.nextOn platform socket = l.nextOn .posix socket := by
  apply Platform.ask_eq_posix
  intro request hrequest
  rcases Nat.lt_or_ge l.totalReceived l.destination.size with hlt | hge
  · rw [next_of_lt hopen hlt] at hrequest
    cases hrequest
    exact hfits.mono (Nat.sub_le _ _)
  · rw [next_of_ge hge] at hrequest
    cases hrequest

/-- From any point of the loop, the rest of the destination is filled. -/
theorem ReceiveExactly.run_of_fits (hopen : socket.isOpen = true) {fuel calls : ℕ}
    {l : ReceiveExactly} {memory : Memory β} {received : List β}
    (hfits : platform.Fits l.destination.size) (hreceived : received.length = l.totalReceived)
    (hle : l.totalReceived ≤ l.destination.size)
    (hfuel : l.destination.size - l.totalReceived < fuel) :
    ∃ bytes, bytes.length = l.destination.size ∧
      ReceiveExactly.run platform socket chunking fuel calls l
          (memory.write l.destination.start received) received =
        some (.ok ⟨l.destination.size, .completed⟩, memory.write l.destination.start bytes,
          bytes) := by
  induction fuel generalizing calls l received with
  | zero => omega
  | succ fuel ih =>
    rcases Nat.lt_or_ge l.totalReceived l.destination.size with hlt | hge
    · have hsize : (l.destination.subspan l.totalReceived).size =
          l.destination.size - l.totalReceived := rfl
      obtain ⟨hpos, hcount⟩ :=
        chunking.delivers_le calls (l.destination.subspan l.totalReceived).size (by omega)
      have hnext : l.nextOn platform socket =
          .native (l.destination.subspan l.totalReceived) := by
        rw [nextOn, next_of_lt hopen hlt]
        exact Platform.ask_of_fits (hfits.mono (by omega))
      have hresume := resume_of_pos (l := l) hpos
      have hwrite := memory.write_append l.destination.start received
        (chunking.delivers calls (l.destination.subspan l.totalReceived).size)
      rw [hreceived] at hwrite
      simp only [run, hnext, hresume]
      rw [show (l.destination.subspan l.totalReceived).start =
        l.destination.start + l.totalReceived from rfl, ← hwrite]
      exact ih (l := { l with
          totalReceived := l.totalReceived +
            (chunking.delivers calls (l.destination.subspan l.totalReceived).size).length })
        hfits (by rw [List.length_append, hreceived]) (by simp only; omega) (by simp only; omega)
    · have hfull : l.totalReceived = l.destination.size := le_antisymm hle hge
      have hnext : l.nextOn platform socket = .returns ⟨l.totalReceived, .completed⟩ := by
        rw [nextOn, next_of_ge hge]
        rfl
      refine ⟨received, hreceived.trans hfull, ?_⟩
      simp only [run, hnext, hfull]

theorem ReceiveExactly.destination_of_resume {l l' : ReceiveExactly} {native : NativeResult}
    (h : l.resume native = .ok (.inl l')) : l'.destination = l.destination := by
  unfold resume at h
  split at h
  · cases h
  · split_ifs at h
    · cases h
    · have hsame := Sum.inl.inj (Except.ok.inj h)
      rw [← hsame]

theorem ReceiveExactly.run_eq_posix (hopen : socket.isOpen = true) {fuel calls : ℕ}
    {l : ReceiveExactly} {memory : Memory β} {received : List β}
    (hfits : platform.Fits l.destination.size) :
    ReceiveExactly.run platform socket chunking fuel calls l memory received =
      ReceiveExactly.run .posix socket chunking fuel calls l memory received := by
  induction fuel generalizing calls l memory received with
  | zero => rfl
  | succ fuel ih =>
    rw [run, run, nextOn_eq_posix hopen hfits]
    cases l.nextOn .posix socket with
    | native destination =>
      simp only
      cases hresume : l.resume
          (.transferred (chunking.delivers calls destination.size).length) with
      | error e => rfl
      | ok outcome =>
        cases outcome with
        | inl l' => exact ih ((destination_of_resume hresume).symm ▸ hfits)
        | inr result => rfl
    | returns value => rfl
    | throws e => rfl

theorem receiveExactly_of_fits (hopen : socket.isOpen = true) (chunking : Chunking β) {fuel : ℕ}
    {destination : Span} (memory : Memory β) (hfits : platform.Fits destination.size)
    (hsize : 0 < destination.size) (hfuel : destination.size < fuel) :
    ∃ bytes, bytes.length = destination.size ∧
      receiveExactly platform socket chunking fuel destination memory =
        some (.ok ⟨destination.size, .completed⟩, memory.write destination.start bytes, bytes) := by
  have hrun : ∃ bytes, bytes.length = destination.size ∧
      ReceiveExactly.run platform socket chunking fuel 0 { destination }
          (memory.write destination.start []) [] =
        some (.ok ⟨destination.size, .completed⟩, memory.write destination.start bytes, bytes) :=
    ReceiveExactly.run_of_fits (l := { destination }) hopen hfits rfl (Nat.zero_le _) hfuel
  rw [Memory.write_nil] at hrun
  simpa only [receiveExactly, ReceiveExactly.enter, if_neg hsize.ne'] using hrun

theorem receiveExactly_eq_posix (hopen : socket.isOpen = true) {fuel : ℕ} {destination : Span}
    {memory : Memory β} (hfits : platform.Fits destination.size) :
    receiveExactly platform socket chunking fuel destination memory =
      receiveExactly .posix socket chunking fuel destination memory := by
  unfold receiveExactly ReceiveExactly.enter
  split_ifs
  · rfl
  · exact ReceiveExactly.run_eq_posix hopen hfits

theorem receiveExactly_of_exceeds (hopen : socket.isOpen = true) {fuel : ℕ} {destination : Span}
    {memory : Memory β} (hexceeds : intMax < destination.size) (hfuel : destination.size < fuel) :
    receiveExactly .winsock socket chunking fuel destination memory =
      some (.error exceedsLimit, memory, []) := by
  obtain ⟨fuel, rfl⟩ := Nat.exists_eq_add_of_lt hfuel
  have hsize : 0 < destination.size := (Nat.zero_le _).trans_lt hexceeds
  have hnext : ({ destination } : ReceiveExactly).nextOn .winsock socket =
      .throws exceedsLimit := by
    rw [ReceiveExactly.nextOn, ReceiveExactly.next_of_lt hopen hsize]
    exact Platform.ask_of_exceeds hexceeds
  simp only [receiveExactly, ReceiveExactly.enter, if_neg hsize.ne', ReceiveExactly.run, hnext]

/-- Over POSIX every payload is handed over whole and in order and every destination is
filled, however the kernel cuts them. Winsock does exactly the same up to the greatest `int`
and, beyond it, throws before any byte is handed over or stored. -/
theorem large_transfers (hopen : socket.isOpen = true) (chunking : Chunking β) :
    (∀ (data : List β) fuel, data.length < fuel →
      sendAll .posix socket chunking fuel data = some (.ok (), data) ∧
      sendAll .winsock socket chunking fuel data =
        if data.length ≤ intMax then some (.ok (), data) else some (.error exceedsLimit, [])) ∧
    ∀ (destination : Span) (memory : Memory β) fuel, 0 < destination.size →
      destination.size < fuel → ∃ bytes, bytes.length = destination.size ∧
        receiveExactly .posix socket chunking fuel destination memory =
          some (.ok ⟨destination.size, .completed⟩, memory.write destination.start bytes,
            bytes) ∧
        receiveExactly .winsock socket chunking fuel destination memory =
          if destination.size ≤ intMax then
            some (.ok ⟨destination.size, .completed⟩, memory.write destination.start bytes,
              bytes)
          else some (.error exceedsLimit, memory, []) := by
  refine ⟨?_, ?_⟩
  · intro data fuel hfuel
    refine ⟨sendAll_of_fits hopen nofun hfuel, ?_⟩
    split_ifs with hfits
    · exact sendAll_of_fits hopen (fun _ => hfits) hfuel
    · exact sendAll_of_exceeds hopen (Nat.not_le.mp hfits) hfuel
  · intro destination memory fuel hsize hfuel
    have hposix : Platform.posix.Fits destination.size := nofun
    obtain ⟨bytes, hlength, hrun⟩ :=
      receiveExactly_of_fits hopen chunking memory hposix hsize hfuel
    refine ⟨bytes, hlength, hrun, ?_⟩
    split_ifs with hfits
    · rw [receiveExactly_eq_posix hopen fun _ => hfits]
      exact hrun
    · exact receiveExactly_of_exceeds hopen (Nat.not_le.mp hfits) hfuel

/-- A connection that transfers all it is asked to. -/
def wholeChunks : Chunking ℕ where
  accepts _ size := size
  delivers _ size := List.replicate size 0
  accepts_le _ _ h := ⟨h, le_rfl⟩
  delivers_le _ size h := by simpa using h

/-- A connection that transfers one byte at a time. -/
def singleBytes : Chunking ℕ where
  accepts _ _ := 1
  delivers calls _ := [calls]
  accepts_le _ _ h := ⟨Nat.one_pos, h⟩
  delivers_le _ _ h := ⟨Nat.one_pos, h⟩

theorem large_transfers_single_bytes :
    sendAll .winsock ⟨some 3⟩ singleBytes 4 [7, 8, 9] = some (.ok (), [7, 8, 9]) ∧
    ∃ bytes, bytes.length = 3 ∧
      receiveExactly .winsock ⟨some 3⟩ singleBytes 4 ⟨10, 3⟩ (fun _ => 0) =
        some (.ok ⟨3, .completed⟩, Memory.write (fun _ => 0) 10 bytes, bytes) := by
  have hopen : (⟨some 3⟩ : TcpSocket).isOpen = true := rfl
  have h := large_transfers hopen singleBytes
  refine ⟨((h.1 [7, 8, 9] 4 (by decide)).2).trans (if_pos (by decide)), ?_⟩
  obtain ⟨bytes, hlength, -, hrun⟩ := h.2 ⟨10, 3⟩ (fun _ => 0) 4 (by decide) (by decide)
  exact ⟨bytes, hlength, hrun.trans (if_pos (by decide))⟩

/-- One byte more than the greatest `int`. -/
theorem large_transfers_refused :
    (∀ fuel, 2 ^ 31 < fuel →
      sendAll .winsock ⟨some 3⟩ wholeChunks fuel (List.replicate (2 ^ 31) 0) =
        some (.error exceedsLimit, []) ∧
      receiveExactly .winsock ⟨some 3⟩ wholeChunks fuel ⟨0, 2 ^ 31⟩ (fun _ => 1) =
        some (.error exceedsLimit, fun _ => 1, [])) ∧
    ¬ ∀ (data : List ℕ), ∀ fuel, data.length < fuel →
      sendAll .winsock ⟨some 3⟩ wholeChunks fuel data = some (.ok (), data) := by
  have hexceeds : intMax < (List.replicate (2 ^ 31) 0).length := by
    rw [List.length_replicate]
    decide
  have hsend : ∀ fuel, 2 ^ 31 < fuel →
      sendAll .winsock ⟨some 3⟩ wholeChunks fuel (List.replicate (2 ^ 31) 0) =
        some (.error exceedsLimit, []) := by
    intro fuel hfuel
    exact sendAll_of_exceeds rfl hexceeds (by rw [List.length_replicate]; exact hfuel)
  refine ⟨fun fuel hfuel => ⟨hsend fuel hfuel, ?_⟩, fun hall => ?_⟩
  · exact receiveExactly_of_exceeds rfl (by decide) hfuel
  · have hclaimed := hall (List.replicate (2 ^ 31) 0) (2 ^ 31 + 1)
      (by rw [List.length_replicate]; exact Nat.lt_succ_self _)
    rw [hsend _ (by omega)] at hclaimed
    cases hclaimed

end Obz.Transport
