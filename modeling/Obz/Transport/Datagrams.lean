import Obz.Transport.UdpSocket

/-!
# Datagrams arrive whole or marked

What `receive_from` reports does not depend on the platform: the two native
functions tell of a datagram that does not fit in different ways, and the library
makes one answer of them.
-/
namespace Obz.Transport.Datagrams

open Foundation Addresses

variable {platform : Platform} {native : NativeAddresses} {ι : Type*} [DecidableEq ι]
  {w w' : World ι}

/-! ### One datagram -/

/-- The endpoint that is reported for an address. -/
def endpointOf (native : NativeAddresses) (address : SockaddrIn) : Endpoint :=
  ⟨dottedDecimal address.sinAddr, native.ntohs address.sinPort⟩

theorem fromSockaddrIn_ok (address : SockaddrIn) :
    fromSockaddrIn platform native address = .ok (endpointOf native address) := by
  obtain ⟨family, port, a⟩ := address
  rw [← native.htons_ntohs port, fromSockaddrIn_eq, endpointOf, native.htons_ntohs]

/-- A reply to the reported sender goes where the datagram came from. -/
theorem toSockaddrIn_endpointOf (hstarted : Started platform native) (address : SockaddrIn) :
    toSockaddrIn platform native (endpointOf native address) =
      .ok ⟨afInet, address.sinPort, address.sinAddr⟩ := by
  refine toSockaddrIn_eq_ok.mpr ⟨hstarted, address.sinAddr, ?_, ?_⟩
  · exact cString_eq_self (nul_notMem_dottedDecimal address.sinAddr)
  · rw [endpointOf, native.htons_ntohs]

/-- What is reported for a datagram and a destination of this size. -/
def report (native : NativeAddresses) (size : ℕ) (d : Datagram) : UdpReceiveResult where
  sender := endpointOf native d.source
  bytesReceived := min size d.payload.length
  status := if size < d.payload.length then .truncated else .complete

theorem receiveUdp_nativeReceive (size : ℕ) (d : Datagram) :
    receiveUdp platform native size (nativeReceive platform size d) =
      .ok (report native size d) := by
  cases platform with
  | posix =>
    simp [receiveUdp, nativeReceive, fromSockaddrIn_ok, bind, Except.bind, report]
  | winsock =>
    unfold nativeReceive
    split_ifs with hlong
    · simp [receiveUdp, fromSockaddrIn_ok, bind, Except.bind, report, hlong, hlong.le]
    · simp [receiveUdp, fromSockaddrIn_ok, bind, Except.bind, report, hlong, Nat.not_lt.mp hlong]

namespace World

/-- Taking a datagram, told without the native calls. -/
theorem take_eq (i : ι) (socket : KernelSocket) (destination : Span) (d : Datagram)
    (rest : List Datagram) :
    w.take platform native i socket destination d rest =
      (.ok (.received (report native destination.size d)),
        { w.set i (some { socket with
            inbox := rest
            received := socket.received ++ [⟨report native destination.size d, destination.size,
              d.payload.take destination.size⟩] }) with
          memory := w.memory.write destination.start (d.payload.take destination.size) }) := by
  have hread : (w.memory.write destination.start (d.payload.take destination.size)).read
      destination.start (report native destination.size d).bytesReceived =
        d.payload.take destination.size := by
    have hlength : (report native destination.size d).bytesReceived =
        (d.payload.take destination.size).length := by
      rw [List.length_take]
      rfl
    rw [hlength, Memory.read_write]
  simp only [take, receiveUdp_nativeReceive, hread]

/-! ### What a call can do -/

/-- `Does w a answer w'`: the ways in which a call returns or throws. -/
inductive Does (platform : Platform) (native : NativeAddresses) (w : World ι) :
    Action ι → Except UdpError Answer → World ι → Prop
  | throws {a e} (ha : ∀ i localEndpoint created bound, a ≠ .bind i localEndpoint created bound) :
      Does platform native w a (.error e) w
  | bindFails {i localEndpoint created bound e} :
      Does platform native w (.bind i localEndpoint created bound) (.error e) (w.close i)
  | opens {i created} (hi : w.sockets i = none) (hstarted : Started platform native) :
      Does platform native w (.open i created) (.ok .done) (w.set i (some {}))
  | binds {i localEndpoint created bound} (hstarted : Started platform native) :
      Does platform native w (.bind i localEndpoint created bound) (.ok .done) (w.set i (some {}))
  | joins {i socket groupAddress interfaceAddress joined request}
      (hi : w.sockets i = some socket)
      (hrequest : multicastRequest platform native groupAddress interfaceAddress = .ok request) :
      Does platform native w (.joinMulticastGroup i groupAddress interfaceAddress joined)
        (.ok .done)
        (w.set i (some { socket with memberships := socket.memberships.insert request }))
  | leaves {i socket groupAddress interfaceAddress left request}
      (hi : w.sockets i = some socket)
      (hrequest : multicastRequest platform native groupAddress interfaceAddress = .ok request) :
      Does platform native w (.leaveMulticastGroup i groupAddress interfaceAddress left)
        (.ok .done)
        (w.set i (some { socket with memberships := socket.memberships.erase request }))
  | sends {i socket remoteEndpoint data source sent} (hi : w.sockets i = some socket) :
      Does platform native w (.sendTo i remoteEndpoint data source sent)
        (.ok (.sent data.length))
        { w with network := w.network ++ [⟨source, remoteEndpoint, data⟩] }
  | receives {i socket destination d rest} (hi : w.sockets i = some socket)
      (hsize : 0 < destination.size) (hinbox : socket.inbox = d :: rest) :
      Does platform native w (.receiveFrom i destination none)
        (.ok (.received (report native destination.size d)))
        { w.set i (some { socket with
            inbox := rest
            received := socket.received ++ [⟨report native destination.size d, destination.size,
              d.payload.take destination.size⟩] }) with
          memory := w.memory.write destination.start (d.payload.take destination.size) }
  | closes {i} : Does platform native w (.close i) (.ok .done) (w.close i)
  | moves {this other} :
      Does platform native w (.moveAssign this other) (.ok .done) (w.moveAssign this other)
  | arrives {i socket k x} (hi : w.sockets i = some socket) (hk : w.network[k]? = some x) :
      Does platform native w (.arrive i k) (.ok .done)
        (w.set i (some { socket with
          inbox := socket.inbox ++ [x.datagram]
          arrived := socket.arrived ++ [x.datagram] }))

variable {answer : Except UdpError Answer}

/-- A step that needs the one before it. -/
theorem ok_of_bind {ε α β : Type} {x : Except ε α} {f : α → Except ε β} {b : β}
    (h : x >>= f = .ok b) : ∃ a, x = .ok a ∧ f a = .ok b := by
  cases x with
  | error e => cases h
  | ok a => exact ⟨a, rfl, h⟩

theorem checked_map_ok {ρ : Type} {failure : Bytes} {result : Except ℕ Unit} {made done : ρ}
    (h : checked platform failure (result.map fun _ => made) = .ok done) : made = done := by
  cases result with
  | error code => cases h
  | ok _ => exact Except.ok.inj h

theorem createUdpSocket_ok {created : Except ℕ Unit} {socket : KernelSocket}
    (h : createUdpSocket platform native created = .ok socket) :
    Started platform native ∧ {} = socket := by
  obtain ⟨_, hstart, hchecked⟩ := ok_of_bind h
  exact ⟨start_eq_ok.mp hstart, checked_map_ok hchecked⟩

/-- A native function that changes the socket has succeeded, or nothing has happened. -/
theorem change_cases {i : ι} {result : Except AddressError KernelSocket}
    {answer : Except UdpError Answer} (h : w.change i result = (answer, w')) :
    (∃ socket, result = .ok socket ∧ answer = .ok .done ∧ w' = w.set i (some socket)) ∨
      ∃ e, answer = .error e ∧ w' = w := by
  cases result with
  | error e =>
    obtain ⟨rfl, rfl⟩ := Prod.mk.inj h
    exact Or.inr ⟨_, rfl, rfl⟩
  | ok socket =>
    obtain ⟨rfl, rfl⟩ := Prod.mk.inj h
    exact Or.inl ⟨socket, rfl, rfl, rfl⟩

theorem open_cases {i : ι} {created : Except ℕ Unit} {answer : Except UdpError Answer}
    (h : w.open platform native i created = (answer, w')) :
    (w.sockets i = none ∧ Started platform native ∧ answer = .ok .done ∧
      w' = w.set i (some {})) ∨ ∃ e, answer = .error e ∧ w' = w := by
  unfold World.open at h
  cases hi : w.sockets i with
  | some socket =>
    rw [hi] at h
    obtain ⟨rfl, rfl⟩ := Prod.mk.inj h
    exact Or.inr ⟨_, rfl, rfl⟩
  | none =>
    rw [hi] at h
    rcases change_cases h with ⟨socket, hcreated, hdone⟩ | hfails
    · obtain ⟨hstarted, rfl⟩ := createUdpSocket_ok hcreated
      exact Or.inl ⟨rfl, hstarted, hdone⟩
    · exact Or.inr hfails

@[simp] theorem close_set (i : ι) (socket : Option KernelSocket) :
    (w.close i).set i socket = w.set i socket := by
  simp [close, set]

@[simp] theorem set_close (i : ι) (socket : Option KernelSocket) :
    (w.set i socket).close i = w.close i := by
  simp [close, set]

/-- `bind` closes what was open, and closes again what it has opened if that cannot be bound. -/
theorem bind_cases {i : ι} {localEndpoint : Endpoint} {created bound : Except ℕ Unit}
    {answer : Except UdpError Answer}
    (h : w.bind platform native i localEndpoint created bound = (answer, w')) :
    (Started platform native ∧ answer = .ok .done ∧ w' = w.set i (some {})) ∨
      ∃ e, answer = .error e ∧ w' = w.close i := by
  unfold World.bind at h
  rcases hopened : (w.close i).open platform native i created with ⟨answer', opened⟩
  rw [hopened] at h
  rcases open_cases hopened with ⟨-, hstarted, rfl, rfl⟩ | ⟨e, rfl, rfl⟩
  · rw [close_set] at h
    simp only at h
    split at h
    · obtain ⟨rfl, rfl⟩ := Prod.mk.inj h
      exact Or.inr ⟨_, rfl, set_close i _⟩
    · obtain ⟨rfl, rfl⟩ := Prod.mk.inj h
      exact Or.inl ⟨hstarted, rfl, rfl⟩
  · obtain ⟨rfl, rfl⟩ := Prod.mk.inj h
    exact Or.inr ⟨e, rfl, rfl⟩

/-- What a change of the memberships makes of a socket, if the request is accepted. -/
theorem membership_ok {groupAddress interfaceAddress failure : Bytes} {result : Except ℕ Unit}
    {make : IpMreq → KernelSocket} {after : KernelSocket}
    (h : (do
      let request ← multicastRequest platform native groupAddress interfaceAddress
      checked platform failure (result.map fun _ => make request)) = .ok after) :
    ∃ request, multicastRequest platform native groupAddress interfaceAddress = .ok request ∧
      make request = after := by
  obtain ⟨request, hrequest, hchecked⟩ := ok_of_bind h
  exact ⟨request, hrequest, checked_map_ok hchecked⟩

theorem sendUdp_count {remoteEndpoint : Endpoint} {data : Bytes} {sent : Except ℕ Unit} {count : ℕ}
    (h : sendUdp platform native remoteEndpoint data
      (fun data _ => sent.map fun _ => data.length) = .ok count) : data.length = count := by
  obtain ⟨address, -, hrest⟩ := ok_of_bind h
  split at hrest
  · cases hrest
  · exact checked_map_ok hrest

theorem receiveUdp_failure (size : ℕ) (failure : Failure) (address : SockaddrIn)
    (truncated : Bool) :
    receiveUdp platform native size ⟨.failed failure, address, truncated⟩ =
      .error (failedToReceive platform failure) := by
  cases platform with
  | posix => rfl
  | winsock => exact if_neg failure.2

/-- A call of `receive_from` has failed, or it has taken the first datagram of the inbox. -/
theorem receiveFrom_cases {i : ι} {destination : Span} {failed : Option Failure}
    {answer : Except UdpError Answer}
    (h : w.receiveFrom platform native i destination failed = some (answer, w')) :
    (∃ e, answer = .error e ∧ w' = w) ∨
      ∃ socket d rest, failed = none ∧ w.sockets i = some socket ∧ 0 < destination.size ∧
        socket.inbox = d :: rest ∧
        w.take platform native i socket destination d rest = (answer, w') := by
  unfold receiveFrom at h
  split_ifs at h with hsize
  · obtain ⟨rfl, rfl⟩ := Prod.mk.inj (Option.some.inj h)
    exact Or.inl ⟨_, rfl, rfl⟩
  cases hi : w.sockets i with
  | none =>
    rw [hi] at h
    obtain ⟨rfl, rfl⟩ := Prod.mk.inj (Option.some.inj h)
    exact Or.inl ⟨_, rfl, rfl⟩
  | some socket =>
    simp only [hi] at h
    cases hnative : platform.nativeSize destination.size with
    | error e =>
      rw [hnative] at h
      obtain ⟨rfl, rfl⟩ := Prod.mk.inj (Option.some.inj h)
      exact Or.inl ⟨_, rfl, rfl⟩
    | ok size =>
      simp only [hnative] at h
      cases failed with
      | some failure =>
        simp only [receiveUdp_failure] at h
        obtain ⟨rfl, rfl⟩ := Prod.mk.inj (Option.some.inj h)
        exact Or.inl ⟨_, rfl, rfl⟩
      | none =>
        cases hinbox : socket.inbox with
        | nil => simp [hinbox] at h
        | cons d rest =>
          simp only [hinbox, Option.some.injEq] at h
          exact Or.inr ⟨socket, d, rest, rfl, rfl, Nat.pos_of_ne_zero hsize, hinbox, h⟩

theorem does_of_call {a : Action ι} {answer : Except UdpError Answer}
    (h : w.call platform native a = some (answer, w')) : Does platform native w a answer w' := by
  cases a with
  | «open» i created =>
    rcases open_cases (Option.some.inj h) with ⟨hi, hstarted, rfl, rfl⟩ | ⟨e, rfl, rfl⟩
    · exact .opens hi hstarted
    · exact .throws (by simp)
  | bind i localEndpoint created bound =>
    rcases bind_cases (Option.some.inj h) with ⟨hstarted, rfl, rfl⟩ | ⟨e, rfl, rfl⟩
    · exact .binds hstarted
    · exact .bindFails
  | joinMulticastGroup i groupAddress interfaceAddress joined =>
    have hcall := Option.some.inj h
    unfold World.joinMulticastGroup at hcall
    split at hcall
    · obtain ⟨rfl, rfl⟩ := Prod.mk.inj hcall
      exact .throws (by simp)
    · rename_i socket hi
      rcases change_cases hcall with ⟨after, hafter, rfl, rfl⟩ | ⟨e, rfl, rfl⟩
      · obtain ⟨request, hrequest, rfl⟩ := membership_ok hafter
        exact .joins hi hrequest
      · exact .throws (by simp)
  | leaveMulticastGroup i groupAddress interfaceAddress left =>
    have hcall := Option.some.inj h
    unfold World.leaveMulticastGroup at hcall
    split at hcall
    · obtain ⟨rfl, rfl⟩ := Prod.mk.inj hcall
      exact .throws (by simp)
    · rename_i socket hi
      rcases change_cases hcall with ⟨after, hafter, rfl, rfl⟩ | ⟨e, rfl, rfl⟩
      · obtain ⟨request, hrequest, rfl⟩ := membership_ok hafter
        exact .leaves hi hrequest
      · exact .throws (by simp)
  | sendTo i remoteEndpoint data source sent =>
    have hcall := Option.some.inj h
    unfold World.sendTo at hcall
    split at hcall
    · obtain ⟨rfl, rfl⟩ := Prod.mk.inj hcall
      exact .throws (by simp)
    · rename_i socket hi
      split at hcall
      · obtain ⟨rfl, rfl⟩ := Prod.mk.inj hcall
        exact .throws (by simp)
      · rename_i count hcount
        obtain rfl := sendUdp_count hcount
        obtain ⟨rfl, rfl⟩ := Prod.mk.inj hcall
        exact .sends hi
  | receiveFrom i destination failed =>
    rcases receiveFrom_cases h with ⟨e, rfl, rfl⟩ | ⟨socket, d, rest, rfl, hi, hsize, hinbox, htake⟩
    · exact .throws (by simp)
    · rw [take_eq] at htake
      obtain ⟨rfl, rfl⟩ := Prod.mk.inj htake
      exact .receives hi hsize hinbox
  | close i =>
    obtain ⟨rfl, rfl⟩ := Prod.mk.inj (Option.some.inj h)
    exact .closes
  | moveAssign this other =>
    obtain ⟨rfl, rfl⟩ := Prod.mk.inj (Option.some.inj h)
    exact .moves
  | arrive i k =>
    obtain ⟨v, hv, hcall⟩ := Option.map_eq_some_iff.mp h
    obtain ⟨rfl, rfl⟩ := Prod.mk.inj hcall
    unfold World.arrive at hv
    split at hv
    · rename_i socket x hi hk
      obtain rfl := Option.some.inj hv
      exact .arrives hi hk
    · cases hv

end World

/-! ### All runs -/

/-- The datagram that a call of `receive_from` has taken. -/
structure Matches (platform : Platform) (native : NativeAddresses) (r : Received)
    (d : Datagram) : Prop where
  bytes : r.bytes = d.payload.take r.size
  count : r.result.bytesReceived = r.bytes.length
  marked : r.result.status = .truncated ↔ r.size < d.payload.length
  reply : toSockaddrIn platform native r.result.sender =
    .ok ⟨afInet, d.source.sinPort, d.source.sinAddr⟩

theorem matches_report (hstarted : Started platform native) (size : ℕ) (d : Datagram) :
    Matches platform native ⟨report native size d, size, d.payload.take size⟩ d where
  bytes := rfl
  count := List.length_take.symm
  marked := by
    simp only [report]
    split_ifs with hlong <;> simp [hlong]
  reply := toSockaddrIn_endpointOf hstarted d.source

theorem Matches.whole {r : Received} {d : Datagram} (h : Matches platform native r d)
    (hcomplete : r.result.status = .complete) : r.bytes = d.payload := by
  have hfits : ¬ r.size < d.payload.length := by
    rw [← h.marked, hcomplete]
    simp
  rw [h.bytes, List.take_of_length_le (Nat.not_lt.mp hfits)]

theorem exists_match {received : List Received} {taken : List Datagram} {r : Received}
    (h : List.Forall₂ (Matches platform native) received taken) (hr : r ∈ received) :
    ∃ d ∈ taken, Matches platform native r d := by
  induction h with
  | nil => cases hr
  | @cons r' d received taken hfirst _ ih =>
    rcases List.mem_cons.mp hr with rfl | hr
    · exact ⟨d, List.mem_cons_self, hfirst⟩
    · obtain ⟨d', hd', hmatch⟩ := ih hr
      exact ⟨d', List.mem_cons_of_mem _ hd', hmatch⟩

/-- Every call has taken one datagram, in the order of their arrival. -/
structure Delivered (platform : Platform) (native : NativeAddresses) (network : List Sent)
    (socket : KernelSocket) : Prop where
  started : Started platform native
  in_order : ∃ taken, socket.arrived = taken ++ socket.inbox ∧
    List.Forall₂ (Matches platform native) socket.received taken
  sent : ∀ d ∈ socket.arrived, ∃ x ∈ network, x.datagram = d

namespace Delivered

variable {network : List Sent} {socket : KernelSocket}

theorem fresh (hstarted : Started platform native) : Delivered platform native network {} where
  started := hstarted
  in_order := ⟨[], rfl, .nil⟩
  sent := fun _ hd => absurd hd List.not_mem_nil

theorem mono (h : Delivered platform native network socket) (x : Sent) :
    Delivered platform native (network ++ [x]) socket where
  started := h.started
  in_order := h.in_order
  sent := by
    intro d hd
    obtain ⟨y, hy, hyd⟩ := h.sent d hd
    exact ⟨y, List.mem_append_left _ hy, hyd⟩

theorem withMemberships (h : Delivered platform native network socket)
    (memberships : List IpMreq) :
    Delivered platform native network { socket with memberships } :=
  ⟨h.started, h.in_order, h.sent⟩

theorem arrive (h : Delivered platform native network socket) {x : Sent} (hx : x ∈ network) :
    Delivered platform native network { socket with
      inbox := socket.inbox ++ [x.datagram]
      arrived := socket.arrived ++ [x.datagram] } where
  started := h.started
  in_order := by
    obtain ⟨taken, harrived, hmatches⟩ := h.in_order
    exact ⟨taken, by simp only [harrived, List.append_assoc], hmatches⟩
  sent := by
    intro d hd
    rcases List.mem_append.mp hd with hd | hd
    · exact h.sent d hd
    · exact ⟨x, hx, (List.mem_singleton.mp hd).symm⟩

theorem receive (h : Delivered platform native network socket) {d : Datagram}
    {rest : List Datagram} (hinbox : socket.inbox = d :: rest) (size : ℕ) :
    Delivered platform native network { socket with
      inbox := rest
      received := socket.received ++ [⟨report native size d, size, d.payload.take size⟩] } where
  started := h.started
  in_order := by
    obtain ⟨taken, harrived, hmatches⟩ := h.in_order
    refine ⟨taken ++ [d], ?_, ?_⟩
    · rw [harrived, hinbox]
      simp
    · exact List.rel_append hmatches (.cons (matches_report h.started size d) .nil)
  sent := h.sent

end Delivered

namespace World

def EverySocket (P : KernelSocket → Prop) (w : World ι) : Prop :=
  ∀ i socket, w.sockets i = some socket → P socket

section EverySocket

variable {P : KernelSocket → Prop}

theorem EverySocket.set (h : w.EverySocket P) (i : ι) {after : Option KernelSocket}
    (hafter : ∀ socket ∈ after, P socket) : (w.set i after).EverySocket P := by
  intro j socket hj
  by_cases hij : j = i
  · subst hij
    exact hafter socket (by simpa [World.set] using hj)
  · exact h j socket (by simpa [World.set, hij] using hj)

theorem EverySocket.put (h : w.EverySocket P) (i : ι) {after : KernelSocket} (hafter : P after) :
    (w.set i (some after)).EverySocket P :=
  h.set i fun _ hsocket => Option.some.inj hsocket ▸ hafter

theorem EverySocket.close (h : w.EverySocket P) (i : ι) : (w.close i).EverySocket P :=
  h.set i fun _ hsocket => by cases hsocket

theorem EverySocket.moveAssign (h : w.EverySocket P) (this other : ι) :
    (w.moveAssign this other).EverySocket P := by
  unfold World.moveAssign
  split_ifs
  · exact h
  · exact (h.set this fun socket hsocket => h other socket hsocket).close other

end EverySocket

theorem moveAssign_rest (this other : ι) :
    (w.moveAssign this other).network = w.network ∧
      (w.moveAssign this other).memory = w.memory := by
  unfold World.moveAssign
  split_ifs <;> exact ⟨rfl, rfl⟩

/-- Every open socket has got its datagrams as they were sent. -/
def AllDelivered (platform : Platform) (native : NativeAddresses) (w : World ι) : Prop :=
  w.EverySocket (Delivered platform native w.network)

theorem AllDelivered.does (h : w.AllDelivered platform native) {a : Action ι}
    {answer : Except UdpError Answer} (hdoes : Does platform native w a answer w') :
    w'.AllDelivered platform native := by
  cases hdoes with
  | throws _ => exact h
  | bindFails | closes => exact EverySocket.close h _
  | opens _ hstarted | binds hstarted => exact EverySocket.put h _ (.fresh hstarted)
  | joins hi _ | leaves hi _ => exact EverySocket.put h _ ((h _ _ hi).withMemberships _)
  | sends hi => exact fun j socket hj => (h j socket hj).mono _
  | receives hi _ hinbox => exact EverySocket.put h _ ((h _ _ hi).receive hinbox _)
  | @moves this other =>
    rw [AllDelivered, (moveAssign_rest this other).1]
    exact EverySocket.moveAssign h this other
  | arrives hi hk => exact EverySocket.put h _ ((h _ _ hi).arrive (List.mem_of_getElem? hk))

end World

open World

theorem allDelivered_of_reachable {memory : Memory UInt8}
    (h : (sockets platform native ι memory).Reachable w) : w.AllDelivered platform native := by
  refine h.invariant (fun i socket hi => by cases hi) fun u a v hu hv => ?_
  obtain ⟨⟨answer, v'⟩, hcall, rfl⟩ := Option.map_eq_some_iff.mp hv
  exact hu.does (does_of_call hcall)

/-- A call that throws changes nothing, unless it is `bind`, which then leaves the socket
closed. -/
theorem World.Does.of_error {a : Action ι} {e : UdpError}
    (h : Does platform native w a (.error e) w') :
    w' = w ∨ ∃ i localEndpoint created bound,
      a = .bind i localEndpoint created bound ∧ w' = w.close i := by
  generalize hanswer : (Except.error e : Except UdpError Answer) = answer at h
  cases h with
  | throws _ => exact Or.inl rfl
  | bindFails => exact Or.inr ⟨_, _, _, _, rfl, rfl⟩
  | _ => cases hanswer

/-- Only the destination of a call that returns is written to. -/
theorem World.Does.memory {a : Action ι} {answer : Except UdpError Answer} {n : ℕ}
    (h : Does platform native w a answer w') (hn : w'.memory n ≠ w.memory n) :
    ∃ i destination, a = .receiveFrom i destination none ∧
      destination.start ≤ n ∧ n < destination.start + destination.size := by
  cases h with
  | @receives i socket destination d rest hi hsize hinbox =>
    refine ⟨i, destination, rfl, ?_, ?_⟩
    · by_contra hlt
      exact hn (Memory.write_of_lt _ _ (Nat.not_le.mp hlt))
    · by_contra hge
      refine hn (Memory.write_of_ge _ _ ?_)
      have hle : (d.payload.take destination.size).length ≤ destination.size := by
        rw [List.length_take]
        exact Nat.min_le_left _ _
      omega
  | @moves this other => exact absurd (congrFun (moveAssign_rest this other).2 n) hn
  | _ => exact absurd rfl hn

/-- Whatever the network and the system do, on either platform: the datagrams that a socket has
got were sent by calls of `send_to`, every call of `receive_from` that returned has taken the
next one, stored as much of it as fits, marked it if that is not all, and named a sender that a
reply reaches. A call that throws changes nothing, but `bind` closes its socket. -/
theorem datagrams_arrive_whole_or_marked {memory : Memory UInt8}
    (h : (sockets platform native ι memory).Reachable w) :
    (∀ i socket, w.sockets i = some socket → Delivered platform native w.network socket ∧
      ∀ r ∈ socket.received, r.result.status = .complete →
        ∃ x ∈ w.network, r.bytes = x.data) ∧
    (∀ a e w', w.call platform native a = some (.error e, w') →
      w' = w ∨ ∃ i localEndpoint created bound,
        a = .bind i localEndpoint created bound ∧ w' = w.close i) ∧
    ∀ a answer w' n, w.call platform native a = some (answer, w') → w'.memory n ≠ w.memory n →
      ∃ i destination, a = .receiveFrom i destination none ∧
        destination.start ≤ n ∧ n < destination.start + destination.size := by
  refine ⟨fun i socket hi => ?_, fun a e w' hcall => (does_of_call hcall).of_error,
    fun a answer w' n hcall => (does_of_call hcall).memory⟩
  have hdelivered := allDelivered_of_reachable h i socket hi
  refine ⟨hdelivered, fun r hr hcomplete => ?_⟩
  obtain ⟨taken, harrived, hmatches⟩ := hdelivered.in_order
  obtain ⟨d, hd, hmatch⟩ := exists_match hmatches hr
  obtain ⟨x, hx, rfl⟩ := hdelivered.sent d (harrived ▸ List.mem_append_left _ hd)
  exact ⟨x, hx, hmatch.whole hcomplete⟩

/-- A reply, cut to the destination of two bytes, on Winsock. -/
def truncatedRun : List (Action Bool) :=
  let source : SockaddrIn := ⟨afInet, swapBytes 4000, loopback⟩
  [.bind true ⟨ascii "127.0.0.1", 4000⟩ (.ok ()) (.ok ()), .open false (.ok ()),
    .sendTo true ⟨ascii "127.0.0.1", 4001⟩ [1, 2, 3] source (.ok ()), .arrive false 0,
    .receiveFrom false ⟨0, 2⟩ none]

def truncatedEnd : World Bool := (sockets .winsock reference Bool fun _ => 0).after truncatedRun

theorem datagrams_arrive_whole_or_marked_truncated :
    ∃ socket, truncatedEnd.sockets false = some socket ∧
      socket.received.map (fun r => (r.bytes, r.result.status)) = [([1, 2], .truncated)] ∧
      Delivered .winsock reference truncatedEnd.network socket := by
  have hreceived : (truncatedEnd.sockets false).map (fun socket =>
      socket.received.map fun r => (r.bytes, r.result.status)) =
        some [([1, 2], .truncated)] := by decide +kernel
  obtain ⟨socket, hsocket, hbytes⟩ := Option.map_eq_some_iff.mp hreceived
  have h := datagrams_arrive_whole_or_marked (System.reachable_after (M := sockets .winsock
    reference Bool fun _ => 0) truncatedRun)
  exact ⟨socket, hsocket, hbytes, (h.1 false socket hsocket).1⟩

/-! ### The two platforms -/

/-- Lengths that Winsock can pass on, where a length is looked at. -/
def Action.Fits : Action ι → Prop
  | .sendTo _ remoteEndpoint data _ _ =>
    (∃ a, cString remoteEndpoint.host = dottedDecimal a) → data.length ≤ intMax
  | .receiveFrom _ destination _ => destination.size ≤ intMax
  | _ => True

/-- The same error, with its code in another category. -/
def inCategory (category : ErrorCategory) : AddressError → AddressError
  | .systemError code _ what => .systemError code category what
  | .invalidArgument what => .invalidArgument what

def UdpError.inCategory (category : ErrorCategory) : UdpError → UdpError
  | .address e => .address (Datagrams.inCategory category e)
  | .socket e => .socket e

/-- The outcome of a call, with the category that this platform gives to error codes. -/
def reportedOn (platform : Platform) (outcome : Except UdpError Answer × World ι) :
    Except UdpError Answer × World ι :=
  (outcome.1.mapError (UdpError.inCategory (errorCategory platform)), outcome.2)

section Agreement

theorem mapError_bind {ε α β : Type} {x : Except ε α} {f : α → Except ε β} {g : ε → ε} :
    (x >>= f).mapError g = x.mapError g >>= fun a => (f a).mapError g := by
  cases x <;> rfl

theorem checked_on {ρ : Type} (platform : Platform) (failure : Bytes) (result : Except ℕ ρ) :
    (checked .posix failure result).mapError (inCategory (errorCategory platform)) =
      checked platform failure result := by
  cases result <;> rfl

theorem change_on (platform : Platform) (i : ι)
    (result : Except AddressError KernelSocket) :
    w.change i (result.mapError (inCategory (errorCategory platform))) =
      reportedOn platform (w.change i result) := by
  cases result <;> rfl

variable (hstarted : native.wsaStartup = 0)

include hstarted

theorem start_started (platform : Platform) : start platform native = .ok () :=
  start_eq_ok.mpr fun _ => hstarted

/-- An endpoint is refused on its own account, not with an error code. -/
theorem toSockaddrIn_on (platform : Platform) (value : Endpoint) :
    (toSockaddrIn .posix native value).mapError (inCategory (errorCategory platform)) =
      toSockaddrIn platform native value := by
  simp only [toSockaddrIn, start_started hstarted]
  cases native.inetPton (value.host ++ [0]) <;> rfl

theorem multicastRequest_on (platform : Platform) (groupAddress interfaceAddress : Bytes) :
    (multicastRequest .posix native groupAddress interfaceAddress).mapError
        (inCategory (errorCategory platform)) =
      multicastRequest platform native groupAddress interfaceAddress := by
  unfold multicastRequest
  split_ifs with hnul
  · rfl
  · simp only [mapError_bind, toSockaddrIn_on hstarted]
    cases toSockaddrIn platform native ⟨groupAddress, 0⟩ with
    | error e => rfl
    | ok group =>
      cases toSockaddrIn platform native ⟨interfaceAddress, 0⟩ with
      | error e => rfl
      | ok interface =>
        simp only [Bind.bind, Except.bind]
        split_ifs <;> rfl

theorem bindSocket_on (platform : Platform) (value : Endpoint)
    (bind : SockaddrIn → Except ℕ Unit) :
    (bindSocket .posix native value bind).mapError (inCategory (errorCategory platform)) =
      bindSocket platform native value bind := by
  simp only [bindSocket, mapError_bind, toSockaddrIn_on hstarted, checked_on]

theorem open_on (platform : Platform) (i : ι) (created : Except ℕ Unit) :
    w.open platform native i created = reportedOn platform (w.open .posix native i created) := by
  unfold World.open
  cases w.sockets i with
  | some socket => rfl
  | none =>
    rw [← change_on, createUdpSocket, createUdpSocket, mapError_bind, checked_on,
      start_started hstarted, start_started hstarted]
    rfl

theorem bind_on (platform : Platform) (i : ι) (localEndpoint : Endpoint)
    (created bound : Except ℕ Unit) :
    w.bind platform native i localEndpoint created bound =
      reportedOn platform (w.bind .posix native i localEndpoint created bound) := by
  simp only [World.bind, open_on hstarted platform, ← bindSocket_on hstarted platform]
  rcases (w.close i).open .posix native i created with ⟨_ | _, opened⟩
  · rfl
  · cases bindSocket .posix native localEndpoint fun _ => bound <;> rfl

theorem sendUdp_on (platform : Platform) {value : Endpoint} {data : Bytes}
    (hfits : (∃ a, cString value.host = dottedDecimal a) → platform.Fits data.length)
    (sendto : Bytes → SockaddrIn → Except ℕ ℕ) :
    (sendUdp .posix native value data sendto).mapError (inCategory (errorCategory platform)) =
      sendUdp platform native value data sendto := by
  unfold sendUdp
  rw [mapError_bind, toSockaddrIn_on hstarted]
  cases haddress : toSockaddrIn platform native value with
  | error e => rfl
  | ok address =>
    obtain ⟨-, a, ha, -⟩ := toSockaddrIn_eq_ok.mp haddress
    have hsize : platform.nativeSize data.length = .ok data.length :=
      Platform.nativeSize_of_fits (hfits ⟨a, ha⟩)
    simp only [hsize]
    exact checked_on platform _ _

/-- A call whose length fits has one outcome, reported as the platform does. -/
theorem call_on {a : Action ι} (hfits : a.Fits) (platform : Platform) :
    w.call platform native a = (w.call .posix native a).map (reportedOn platform) := by
  cases a with
  | «open» i created => exact congrArg some (open_on hstarted platform i created)
  | bind i localEndpoint created bound =>
    exact congrArg some (bind_on hstarted platform i localEndpoint created bound)
  | joinMulticastGroup i groupAddress interfaceAddress joined =>
    simp only [call, World.joinMulticastGroup, Datagrams.joinMulticastGroup,
      ← multicastRequest_on hstarted platform]
    cases w.sockets i with
    | none => rfl
    | some socket =>
      simp only [Option.map_some, ← change_on, mapError_bind, checked_on]
  | leaveMulticastGroup i groupAddress interfaceAddress left =>
    simp only [call, World.leaveMulticastGroup, Datagrams.leaveMulticastGroup,
      ← multicastRequest_on hstarted platform]
    cases w.sockets i with
    | none => rfl
    | some socket =>
      simp only [Option.map_some, ← change_on, mapError_bind, checked_on]
  | sendTo i remoteEndpoint data source sent =>
    have hsent := sendUdp_on hstarted platform (fun ha _ => hfits ha)
      fun data _ => sent.map fun _ => data.length
    simp only [call, World.sendTo, ← hsent]
    cases w.sockets i with
    | none => rfl
    | some socket =>
      cases sendUdp .posix native remoteEndpoint data
          fun data _ => sent.map fun _ => data.length <;> rfl
  | receiveFrom i destination failed =>
    have hsize : ∀ platform : Platform,
        platform.nativeSize destination.size = .ok destination.size :=
      fun _ => Platform.nativeSize_of_fits fun _ => hfits
    simp only [call, World.receiveFrom, hsize, take_eq, receiveUdp_failure]
    split_ifs with hempty
    · rfl
    · cases w.sockets i with
      | none => rfl
      | some socket =>
        obtain ⟨inbox, memberships, arrived, received⟩ := socket
        cases failed <;> cases inbox <;> rfl
  | close i | moveAssign this other => rfl
  | arrive i k => simp only [call, Option.map_map]; rfl

end Agreement

/-- A world in which every socket is open and nothing has been sent. -/
def opened : World ι := ⟨fun _ => some {}, [], fun _ => 0⟩

omit [DecidableEq ι] in
theorem sendTo_differs {i : ι} {remoteEndpoint : Endpoint} {data : Bytes} {source : SockaddrIn}
    {sent : Except ℕ Unit} {a : InAddr} (ha : cString remoteEndpoint.host = dottedDecimal a)
    (hlong : intMax < data.length) :
    opened.sendTo .winsock reference i remoteEndpoint data source sent ≠
      reportedOn .winsock (opened.sendTo .posix reference i remoteEndpoint data source sent) := by
  have haddress : ∀ platform, toSockaddrIn platform reference remoteEndpoint =
      .ok ⟨afInet, reference.htons remoteEndpoint.port, a⟩ :=
    fun _ => toSockaddrIn_eq_ok.mpr ⟨fun _ => rfl, a, ha, rfl⟩
  have hwinsock : sendUdp .winsock reference remoteEndpoint data
      (fun data _ => sent.map fun _ => data.length) =
        .error (.invalidArgument (ascii "socket operation size exceeds Winsock limit")) := by
    simp only [sendUdp, haddress, Bind.bind, Except.bind, Platform.nativeSize_of_exceeds hlong]
  have hposix : sendUdp .posix reference remoteEndpoint data
      (fun data _ => sent.map fun _ => data.length) =
        checked .posix (ascii "failed to send UDP datagram") (sent.map fun _ => data.length) := by
    simp only [sendUdp, haddress, Bind.bind, Except.bind, Platform.nativeSize]
  simp only [World.sendTo, opened, hwinsock, hposix]
  cases sent <;>
    simp [checked, socketError, Except.map, reportedOn, Except.mapError, UdpError.inCategory,
      inCategory]

theorem receiveFrom_differs {i : ι} {destination : Span} {failed : Option Failure}
    (hlong : intMax < destination.size) :
    opened.receiveFrom .winsock reference i destination failed ≠
      (opened.receiveFrom .posix reference i destination failed).map (reportedOn .winsock) := by
  have hsize : ¬ destination.size = 0 := (Nat.zero_lt_of_lt hlong).ne'
  simp only [World.receiveFrom, if_neg hsize, opened, Platform.nativeSize_of_exceeds hlong]
  cases failed <;>
    simp [Platform.nativeSize, receiveUdp_failure, reportedOn, Except.mapError,
      UdpError.inCategory]

/-- On both platforms a call has the same effect and the same answer, up to the category of an
error code, exactly if Winsock can pass on its length. The category is the generic one on POSIX
and that of the system on Winsock. Runs of such calls are the same. -/
theorem platforms_agree_on_datagrams_iff :
    (∀ a : Action ι, (∀ (platform : Platform) (native : NativeAddresses) (w : World ι),
      native.wsaStartup = 0 →
        w.call platform native a = (w.call .posix native a).map (reportedOn platform)) ↔ a.Fits) ∧
    ∀ (native : NativeAddresses) (memory : Memory UInt8) (w : World ι) (as : List (Action ι)),
      native.wsaStartup = 0 → (∀ a ∈ as, a.Fits) →
        (sockets .winsock native ι memory).run w as =
          (sockets .posix native ι memory).run w as := by
  refine ⟨fun a => ⟨fun hsame => ?_, fun hfits platform native w hstarted => ?_⟩, ?_⟩
  · have hopened := hsame .winsock reference opened rfl
    cases a with
    | sendTo i remoteEndpoint data source sent =>
      rintro ⟨a, ha⟩
      by_contra hlong
      exact sendTo_differs ha (Nat.not_le.mp hlong) (Option.some.inj hopened)
    | receiveFrom i destination failed =>
      by_contra hlong
      exact receiveFrom_differs (Nat.not_le.mp hlong) hopened
    | _ => trivial
  · exact call_on hstarted hfits platform
  · intro native memory w as hstarted hfits
    induction as generalizing w with
    | nil => rfl
    | cons a as ih =>
      have hstep : (sockets .winsock native ι memory).step w a =
          (sockets .posix native ι memory).step w a := by
        simp only [sockets, call_on hstarted (hfits a List.mem_cons_self) .winsock, Option.map_map]
        rfl
      have hrest : ∀ t, (sockets .winsock native ι memory).run t as =
          (sockets .posix native ι memory).run t as :=
        fun t => ih t fun b hb => hfits b (List.mem_cons_of_mem _ hb)
      simp only [System.run, hstep, hrest]

/-- The reply is cut on POSIX as it is on Winsock, and a socket that cannot be created is
reported in another category. -/
theorem platforms_agree_on_datagrams_iff_truncated :
    (sockets .winsock reference Bool fun _ => 0).run (.initial fun _ => 0) truncatedRun =
      (sockets .posix reference Bool fun _ => 0).run (.initial fun _ => 0) truncatedRun ∧
    (World.initial fun _ => 0).call .winsock reference (.open true (.error 24)) =
      ((World.initial fun _ => 0).call .posix reference (.open true (.error 24))).map
        (reportedOn .winsock) :=
  ⟨platforms_agree_on_datagrams_iff.2 reference (fun _ => 0) (.initial fun _ => 0) truncatedRun rfl
    (by simp [truncatedRun, Action.Fits, intMax]),
    (platforms_agree_on_datagrams_iff.1 (.open true (.error 24))).mpr trivial _ _ _ rfl⟩

end Obz.Transport.Datagrams
