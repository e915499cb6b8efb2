import Obz.Transport.Datagrams

/-!
# Multicast groups

The masks of `multicast_request` as ranges of the first octet, and what the
memberships of a socket can be.
-/
namespace Obz.Transport.Datagrams

open Foundation Addresses

/-! ### Masks -/

/-- A mask over the upper bits looks at what is left when the lower bits are shifted out. -/
theorem and_shiftLeft_eq_iff (x mask value k : ℕ) :
    x &&& (mask <<< k) = value <<< k ↔ (x >>> k) &&& mask = value := by
  constructor
  · intro h
    have hshifted := congrArg (· >>> k) h
    simpa [Nat.shiftRight_and_distrib, Nat.shiftLeft_shiftRight] using hshifted
  · rintro rfl
    refine Nat.eq_of_testBit_eq fun i => ?_
    rcases Nat.lt_or_ge i k with hlt | hge
    · simp [Nat.testBit_shiftLeft, Nat.not_le.mpr hlt]
    · simp [Nat.testBit_shiftLeft, hge]

theorem toNat_hostOrder (address : InAddr) :
    address.hostOrder.toNat =
      ((address.first * 256 + address.second) * 256 + address.third) * 256 + address.fourth := by
  obtain ⟨a, b, c, d⟩ := address
  simp only [InAddr.hostOrder, InAddr.octets, List.foldl, BitVec.toNat_ofNat]
  omega

/-- A mask over the upper eight bits looks at the first octet. -/
theorem first_mask_iff (address : InAddr) (mask value : ℕ) (hmask : mask < 256)
    (hvalue : value < 256) :
    address.hostOrder &&& BitVec.ofNat 32 (mask <<< 24) = BitVec.ofNat 32 (value <<< 24) ↔
      address.first.val &&& mask = value := by
  have hshift : ∀ n, n < 256 → n <<< 24 % 2 ^ 32 = n <<< 24 := by
    intro n hn
    rw [Nat.shiftLeft_eq]
    omega
  have hfirst : address.hostOrder.toNat >>> 24 = address.first := by
    rw [toNat_hostOrder, Nat.shiftRight_eq_div_pow]
    have := address.second.isLt
    have := address.third.isLt
    have := address.fourth.isLt
    omega
  rw [← BitVec.toNat_inj, BitVec.toNat_and, BitVec.toNat_ofNat, BitVec.toNat_ofNat,
    hshift mask hmask, hshift value hvalue, and_shiftLeft_eq_iff, hfirst]

/-- `(group & 0xf0000000) == 0xe0000000` -/
theorem isMulticast_iff (address : InAddr) :
    address.hostOrder &&& 0xf0000000#32 = 0xe0000000#32 ↔
      224 ≤ address.first.val ∧ address.first.val < 240 := by
  have hoctet : ∀ octet : Fin 256,
      octet.val &&& 0xf0 = 0xe0 ↔ 224 ≤ octet.val ∧ octet.val < 240 := by
    decide +kernel
  exact (first_mask_iff address 0xf0 0xe0 (by decide) (by decide)).trans (hoctet address.first)

/-- `(interface & 0xff000000) == 0` -/
theorem isThisNetwork_iff (address : InAddr) :
    address.hostOrder &&& 0xff000000#32 = 0 ↔ address.first.val = 0 := by
  have hoctet : ∀ octet : Fin 256, octet.val &&& 0xff = 0 ↔ octet.val = 0 := by decide +kernel
  exact (first_mask_iff address 0xff 0 (by decide) (by decide)).trans (hoctet address.first)

/-- `interface >= 0xe0000000` -/
theorem aboveUnicast_iff (address : InAddr) :
    address.hostOrder ≥ 0xe0000000#32 ↔ 224 ≤ address.first.val := by
  change 0xe0000000 ≤ address.hostOrder.toNat ↔ _
  rw [toNat_hostOrder]
  have := address.second.isLt
  have := address.third.isLt
  have := address.fourth.isLt
  omega

/-! ### What is accepted -/

theorem hostOrder_eq_zero_iff (address : InAddr) :
    address.hostOrder = 0 ↔ address = anyAddress := by
  constructor
  · intro h
    have hzero : address.hostOrder.toNat = 0 := by rw [h]; rfl
    rw [toNat_hostOrder] at hzero
    obtain ⟨a, b, c, d⟩ := address
    simp only [anyAddress, InAddr.mk.injEq, Fin.ext_iff]
    simp only at hzero
    refine ⟨?_, ?_, ?_, ?_⟩ <;> simp <;> omega
  · rintro rfl
    rfl

/-- A multicast group, and the address of an interface or none. -/
structure Admissible (request : IpMreq) : Prop where
  group : 224 ≤ request.imrMultiaddr.first.val ∧ request.imrMultiaddr.first.val < 240
  interface : request.imrInterface = anyAddress ∨
    0 < request.imrInterface.first.val ∧ request.imrInterface.first.val < 224

variable {platform : Platform} {native : NativeAddresses}

/-- The two tests of `multicast_request`. -/
theorem admissible_iff (request : IpMreq) :
    Admissible request ↔
      ¬ (request.imrMultiaddr.hostOrder &&& 0xf0000000#32 ≠ 0xe0000000#32) ∧
      ¬ (request.imrInterface.hostOrder ≠ 0 ∧
        (request.imrInterface.hostOrder &&& 0xff000000#32 = 0 ∨
          request.imrInterface.hostOrder ≥ 0xe0000000#32)) := by
  rw [not_not, isMulticast_iff, ne_eq, hostOrder_eq_zero_iff, isThisNetwork_iff, aboveUnicast_iff]
  constructor
  · rintro ⟨hgroup, hinterface⟩
    refine ⟨hgroup, ?_⟩
    rintro ⟨hsome, hrange⟩
    have := hinterface.resolve_left hsome
    omega
  · rintro ⟨hgroup, hinterface⟩
    refine ⟨hgroup, ?_⟩
    by_cases hany : request.imrInterface = anyAddress
    · exact Or.inl hany
    · refine Or.inr ?_
      by_contra hrange
      exact hinterface ⟨hany, by omega⟩

/-- Of two addresses in dotted decimal only the ranges are looked at. -/
theorem multicastRequest_dottedDecimal (hstarted : Started platform native) (request : IpMreq) :
    multicastRequest platform native (dottedDecimal request.imrMultiaddr)
      (dottedDecimal request.imrInterface) = .ok request ↔ Admissible request := by
  have haddress : ∀ a, toSockaddrIn platform native ⟨dottedDecimal a, 0⟩ =
      .ok ⟨afInet, native.htons 0, a⟩ := by
    intro a
    exact toSockaddrIn_eq_ok.mpr
      ⟨hstarted, a, cString_eq_self (nul_notMem_dottedDecimal a), rfl⟩
  have hfree : ¬ (0 ∈ dottedDecimal request.imrMultiaddr ∨
      0 ∈ dottedDecimal request.imrInterface) := by
    rw [not_or]
    exact ⟨nul_notMem_dottedDecimal _, nul_notMem_dottedDecimal _⟩
  simp only [multicastRequest, if_neg hfree, haddress, Bind.bind, Except.bind]
  rw [admissible_iff]
  split_ifs with hgroup hinterface
  · simp [hgroup]
  · refine iff_of_false (by simp) fun h => h.2 hinterface
  · exact iff_of_true rfl ⟨hgroup, hinterface⟩

theorem started_of_multicastRequest {groupAddress interfaceAddress : Bytes} {request : IpMreq}
    (h : multicastRequest platform native groupAddress interfaceAddress = .ok request) :
    Started platform native := by
  unfold multicastRequest at h
  split_ifs at h
  obtain ⟨address, haddress, -⟩ := World.ok_of_bind h
  exact (toSockaddrIn_eq_ok.mp haddress).1

/-- `multicast_request` accepts the texts of a group and an interface, and nothing else. -/
theorem multicastRequest_eq_ok {groupAddress interfaceAddress : Bytes} {request : IpMreq} :
    multicastRequest platform native groupAddress interfaceAddress = .ok request ↔
      Started platform native ∧ groupAddress = dottedDecimal request.imrMultiaddr ∧
        interfaceAddress = dottedDecimal request.imrInterface ∧ Admissible request := by
  constructor
  · intro h
    have hstarted := started_of_multicastRequest h
    obtain ⟨rfl, rfl⟩ := multicastRequest_accepts h
    exact ⟨hstarted, rfl, rfl, (multicastRequest_dottedDecimal hstarted request).mp h⟩
  · rintro ⟨hstarted, rfl, rfl, hadmissible⟩
    exact (multicastRequest_dottedDecimal hstarted request).mpr hadmissible

/-! ### Memberships over all runs -/

open World

variable {ι : Type*} [DecidableEq ι] {w w' : World ι}

/-- Each membership is one that `multicast_request` makes, and is held once. -/
def KernelSocket.WellJoined (socket : KernelSocket) : Prop :=
  socket.memberships.Nodup ∧ ∀ request ∈ socket.memberships, Admissible request

theorem wellJoined_does (h : w.EverySocket KernelSocket.WellJoined) {a : Action ι}
    {answer : Except UdpError Answer} (hdoes : Does platform native w a answer w') :
    w'.EverySocket KernelSocket.WellJoined := by
  cases hdoes with
  | throws _ | sends _ => exact h
  | bindFails | closes => exact h.close _
  | opens _ _ | binds _ => exact h.put _ ⟨.nil, fun _ hrequest => absurd hrequest List.not_mem_nil⟩
  | joins hi hrequest =>
    refine h.put _ ⟨(h _ _ hi).1.insert, fun other hother => ?_⟩
    rcases List.mem_insert_iff.mp hother with rfl | hother
    · exact (multicastRequest_eq_ok.mp hrequest).2.2.2
    · exact (h _ _ hi).2 other hother
  | leaves hi _ =>
    exact h.put _ ⟨(h _ _ hi).1.erase _, fun other hother =>
      (h _ _ hi).2 other (List.mem_of_mem_erase hother)⟩
  | @receives i socket _ _ _ hi _ _ | @arrives i socket _ _ hi _ =>
    have hsame : socket.WellJoined := h i socket hi
    exact EverySocket.put h i hsame
  | moves => exact h.moveAssign _ _

theorem call_joinMulticastGroup {i : ι} {socket : KernelSocket}
    {groupAddress interfaceAddress : Bytes} {request : IpMreq} (hi : w.sockets i = some socket)
    (hrequest : multicastRequest platform native groupAddress interfaceAddress = .ok request) :
    w.call platform native (.joinMulticastGroup i groupAddress interfaceAddress (.ok ())) =
      some (.ok .done,
        w.set i (some { socket with memberships := socket.memberships.insert request })) := by
  simp only [World.call, World.joinMulticastGroup, hi, Datagrams.joinMulticastGroup, hrequest]
  rfl

theorem call_leaveMulticastGroup {i : ι} {socket : KernelSocket}
    {groupAddress interfaceAddress : Bytes} {request : IpMreq} (hi : w.sockets i = some socket)
    (hrequest : multicastRequest platform native groupAddress interfaceAddress = .ok request) :
    w.call platform native (.leaveMulticastGroup i groupAddress interfaceAddress (.ok ())) =
      some (.ok .done,
        w.set i (some { socket with memberships := socket.memberships.erase request })) := by
  simp only [World.call, World.leaveMulticastGroup, hi, Datagrams.leaveMulticastGroup, hrequest]
  rfl

/-- In every run, on both platforms: a socket is only ever a member of multicast groups on
admissible interfaces, and of each once. A pair of texts is accepted exactly if it is such a
group and interface in dotted decimal, and leaving with the texts of a new membership undoes
it. -/
theorem memberships_are_multicast {memory : Memory UInt8}
    (h : (sockets platform native ι memory).Reachable w) :
    (∀ i socket, w.sockets i = some socket → socket.WellJoined) ∧
    (∀ groupAddress interfaceAddress request,
      multicastRequest platform native groupAddress interfaceAddress = .ok request ↔
        Started platform native ∧ groupAddress = dottedDecimal request.imrMultiaddr ∧
          interfaceAddress = dottedDecimal request.imrInterface ∧ Admissible request) ∧
    ∀ i socket groupAddress interfaceAddress request, w.sockets i = some socket →
      multicastRequest platform native groupAddress interfaceAddress = .ok request →
        request ∉ socket.memberships →
          ∃ joined,
            w.call platform native
              (.joinMulticastGroup i groupAddress interfaceAddress (.ok ())) =
                some (.ok .done, joined) ∧
            joined.call platform native
              (.leaveMulticastGroup i groupAddress interfaceAddress (.ok ())) =
                some (.ok .done, w) := by
  refine ⟨?_, fun _ _ _ => multicastRequest_eq_ok, ?_⟩
  · refine h.invariant (P := fun u => u.EverySocket KernelSocket.WellJoined)
      (fun i socket hi => by cases hi) fun u a v hu hv => ?_
    obtain ⟨⟨answer, v'⟩, hcall, rfl⟩ := Option.map_eq_some_iff.mp hv
    exact wellJoined_does hu (does_of_call hcall)
  · intro i socket groupAddress interfaceAddress request hi hrequest hnew
    refine ⟨_, call_joinMulticastGroup hi hrequest, ?_⟩
    have hjoined : (w.set i (some { socket with
        memberships := socket.memberships.insert request })).sockets i =
          some { socket with memberships := socket.memberships.insert request } := by
      simp [World.set]
    rw [call_leaveMulticastGroup hjoined hrequest]
    have hundone : (socket.memberships.insert request).erase request = socket.memberships := by
      rw [List.insert_of_not_mem hnew, List.erase_cons_head]
    simp [World.set, hundone, ← hi]

/-- A membership in 224.0.0.1 through any interface, undone. -/
theorem memberships_are_multicast_all_hosts :
    let w := (sockets .posix reference Bool fun _ => 0).after [.open true (.ok ())]
    ∃ joined,
      w.call .posix reference
        (.joinMulticastGroup true (ascii "224.0.0.1") (ascii "0.0.0.0") (.ok ())) =
          some (.ok .done, joined) ∧
      joined.call .posix reference
        (.leaveMulticastGroup true (ascii "224.0.0.1") (ascii "0.0.0.0") (.ok ())) =
          some (.ok .done, w) := by
  intro w
  have h := memberships_are_multicast (System.reachable_after (M := sockets .posix reference Bool
    fun _ => 0) [.open true (.ok ())])
  have haccepted : multicastRequest .posix reference (ascii "224.0.0.1") (ascii "0.0.0.0") =
      .ok ⟨⟨224, 0, 0, 1⟩, anyAddress⟩ :=
    (h.2.1 _ _ ⟨⟨224, 0, 0, 1⟩, anyAddress⟩).mpr ⟨nofun, by decide +kernel, by decide +kernel,
      ⟨by decide, Or.inl rfl⟩⟩
  exact h.2.2 true {} _ _ _ rfl haccepted (by simp)

end Obz.Transport.Datagrams
