import AcCore.Gov.Socket.Datagram

/-!
# What is received of a stream

The datagram that is being received is a function of the bytes of it that have
arrived, however they have been cut. So what a receiver gets is determined by the
stream: the datagrams that were sent, one after the other, until one announces a
size that is not allowed.
-/

namespace AcCore.Gov.Socket

open Lib

/-! ## A datagram that is being received -/

namespace Datagram

/-- The datagram after these bytes of it have arrived. -/
def ofPrefix (p : List UInt8) : Datagram :=
  if p = [] then fresh
  else if p.length < headerSize then
    ⟨p ++ List.replicate (headerSize - p.length) 0, none, p.length⟩
  else
    ⟨p ++ List.replicate (decodeSize p - p.length) 0, some (decodeService p), p.length⟩

/-- These bytes may be the beginning of a datagram: the header is not complete, or it
announces a size that is allowed and that they do not exceed. -/
def IsPrefix (p : List UInt8) : Prop :=
  p.length < headerSize ∨
    headerSize ≤ p.length ∧ p.length ≤ decodeSize p ∧ decodeSize p ≤ maxsize

/-- The size is in the header, whatever follows. -/
theorem decodeSize_append {p : List UInt8} (hp : headerSize ≤ p.length) (bs : List UInt8) :
    decodeSize (p ++ bs) = decodeSize p := by
  unfold headerSize at hp
  rw [decodeSize, decodeSize, List.take_append_of_le_length (by omega)]

/-- The service is in the header, whatever follows. -/
theorem decodeService_append {p : List UInt8} (hp : headerSize ≤ p.length) (bs : List UInt8) :
    decodeService (p ++ bs) = decodeService p := by
  unfold headerSize at hp
  rw [decodeService, decodeService, List.drop_append_of_le_length (by omega),
    List.take_append_of_le_length (by rw [List.length_drop]; omega)]

/-- The size is below `2 ^ 32`. -/
theorem decodeSize_lt (p : List UInt8) : decodeSize p < 2 ^ 32 := by
  have hlt := ofLeBytes_lt (p.take 4)
  have hlength : (p.take 4).length ≤ 4 := List.length_take_le 4 p
  exact lt_of_lt_of_le hlt (Nat.pow_le_pow_right (by norm_num) hlength)

/-- A datagram has as many bytes as have been received. -/
@[simp] theorem dend_ofPrefix (p : List UInt8) : (ofPrefix p).dend = p.length := by
  unfold ofPrefix
  split_ifs with hnil
  · subst hnil
    rfl
  · rfl
  · rfl

/-- Resizing the buffer receives no bytes. -/
@[simp] theorem dend_resize (d : Datagram) (size : ℕ) : (d.resize size).dend = d.dend := rfl

/-- What arrives is written after what is there. -/
theorem write_append (p bs : List UInt8) (service : Option UInt16) (k : ℕ) :
    (⟨p ++ List.replicate k 0, service, p.length⟩ : Datagram).write bs =
      ⟨p ++ bs ++ List.replicate (k - bs.length) 0, service, (p ++ bs).length⟩ := by
  unfold write
  dsimp only
  rw [List.take_left, List.drop_append, List.drop_of_length_le (by omega), List.nil_append,
    Nat.add_sub_cancel_left, List.drop_replicate, List.length_append]

/-- Without its header a datagram is not complete. -/
theorem completed_ofPrefix_of_lt {p : List UInt8} (hp : p.length < headerSize) :
    (ofPrefix p).completed = false := by
  unfold ofPrefix
  split_ifs with hnil
  · rfl
  · simp only [completed, List.length_append, List.length_replicate, decide_eq_false_iff_not]
    omega

/-- With its header it is complete when it has the size that is announced. -/
theorem completed_ofPrefix {p : List UInt8} (hp : headerSize ≤ p.length)
    (hsize : p.length ≤ decodeSize p) :
    (ofPrefix p).completed = true ↔ p.length = decodeSize p := by
  have hnil : p ≠ [] := by
    rintro rfl
    exact absurd hp (by decide)
  rw [ofPrefix, if_neg hnil, if_neg hp.not_gt]
  simp only [completed, List.length_append, List.length_replicate, decide_eq_true_eq]
  constructor
  · rintro ⟨heq, -⟩
    omega
  · intro heq
    exact ⟨by omega, by simp [hnil]⟩

end Datagram

open Datagram

/-! ## What a stream is to its receiver -/

/-- What is received first of a stream, and what is left of it. -/
def frame (again : Bool) (bytes : List UInt8) : Reply × List UInt8 :=
  if bytes.length < headerSize then (.error (headerError again), [])
  else if decodeSize bytes > maxsize then
    (.error "Error. Incoming datagram exceeded size limit.", bytes.drop headerSize)
  else if decodeSize bytes < headerSize then (.undefined, bytes.drop headerSize)
  else if bytes.length < decodeSize bytes then (.error (bodyError again), [])
  else
    (.datagram ⟨bytes.take (decodeSize bytes), some (decodeService bytes), decodeSize bytes⟩,
      bytes.drop (decodeSize bytes))

/-- What a call of `recvfrom` does with a datagram of which some bytes have arrived:
it takes more of them, or it ends as the stream says. -/
inductive Receives (p : List UInt8) (conn : Conn) (r : Received) : Prop where
  | more (bs : List UInt8) (hbs : bs ≠ []) (hbegin : IsPrefix (p ++ bs))
    (outcome : r.outcome = .none) (datagram : r.datagram = ofPrefix (p ++ bs))
    (arriving : bs ++ r.conn.arriving.all = conn.arriving.all)
    (inBounds : ∀ a ∈ r.accesses, a.InBounds)
  | error (text : String) (outcome : r.outcome = .error text)
    (frame : frame conn.again (p ++ conn.arriving.all) = (.error text, r.conn.arriving.all))
    (inBounds : ∀ a ∈ r.accesses, a.InBounds)
  | undefined (outcome : r.outcome = .undefined)
    (frame : frame conn.again (p ++ conn.arriving.all) = (.undefined, r.conn.arriving.all))
    (outOfBounds : ∃ a ∈ r.accesses, ¬ a.InBounds)

/-- The difference of sizes where it does not wrap. -/
theorem subSize_eq {a b : ℕ} (hb : b ≤ a) (ha : a < 2 ^ 64) : subSize a b = a - b := by
  unfold subSize
  omega

/-- The connection is the same, but for what arrives. -/
theorem recvBody_conn (d : Datagram) (conn : Conn) :
    (recvBody d conn).conn.isOpen = conn.isOpen ∧ (recvBody d conn).conn.again = conn.again := by
  unfold recvBody
  dsimp only
  split_ifs <;> exact ⟨rfl, rfl⟩

/-- Receiving bytes neither closes the connection nor asks to go on. -/
theorem recvfrom_conn (d : Datagram) (conn : Conn) :
    (recvfrom d conn).conn.isOpen = conn.isOpen ∧ (recvfrom d conn).conn.again = conn.again := by
  unfold recvfrom
  dsimp only
  generalize (if d.bytes.length < headerSize then d.resize headerSize else d) = resized
  split_ifs
  all_goals first | exact ⟨rfl, rfl⟩ | exact recvBody_conn _ _

/-- The body of a datagram. -/
theorem receives_recvBody {p : List UInt8} (hp : headerSize ≤ p.length)
    (hlt : p.length < decodeSize p) (hmax : decodeSize p ≤ maxsize) (conn : Conn) :
    Receives p conn (recvBody (ofPrefix p) conn) := by
  have hnil : p ≠ [] := by
    rintro rfl
    exact absurd hp (by decide)
  have hmin : headerSize ≤ decodeSize p := by omega
  have hsize : (p ++ List.replicate (decodeSize p - p.length) (0 : UInt8)).length =
      decodeSize p := by
    rw [List.length_append, List.length_replicate]
    omega
  have hsub : subSize (decodeSize p) p.length = decodeSize p - p.length :=
    subSize_eq hlt.le (by have := decodeSize_lt p; omega)
  have hpos : 0 < decodeSize p - p.length := by omega
  have hin : ∀ a ∈ [Access.recv p.length (decodeSize p) (decodeSize p - p.length)],
      a.InBounds := by
    intro a ha
    obtain rfl := List.mem_singleton.mp ha
    exact ⟨hlt.le, Or.inl rfl, by omega⟩
  have happend := conn.arriving.recv_append (decodeSize p - p.length)
  have hle := conn.arriving.length_recv_le (decodeSize p - p.length)
  rw [ofPrefix, if_neg hnil, if_neg hp.not_gt, recvBody]
  dsimp only
  rw [hsize, hsub, if_neg hlt.not_gt, Conn.recv]
  dsimp only
  set bs := (conn.arriving.recv (decodeSize p - p.length)).1
  by_cases hbs : bs = []
  · rw [if_pos hbs]
    have hall := (conn.arriving.recv_eq_nil_iff hpos).mp hbs
    rw [hbs, List.nil_append, hall] at happend
    refine .error _ rfl ?_ hin
    rw [hall, List.append_nil, frame, if_neg hp.not_gt, if_neg hmax.not_gt, if_neg hmin.not_gt,
      if_pos hlt]
    exact Prod.ext rfl happend.symm
  · rw [if_neg hbs]
    refine .more bs hbs (Or.inr ⟨?_, ?_, ?_⟩) rfl ?_ happend hin
    · rw [List.length_append]
      omega
    · rw [decodeSize_append hp, List.length_append]
      omega
    · rwa [decodeSize_append hp]
    · have hp' : headerSize ≤ (p ++ bs).length := by
        rw [List.length_append]
        omega
      dsimp only
      rw [write_append, ofPrefix, if_neg (by simp [hnil]), if_neg hp'.not_gt,
        decodeSize_append hp, decodeService_append hp, List.length_append, Nat.sub_sub]

/-- The buffer for the header. -/
theorem resize_ofPrefix {p : List UInt8} (hp : p.length < headerSize) :
    (if (ofPrefix p).bytes.length < headerSize then (ofPrefix p).resize headerSize
      else ofPrefix p) = ⟨p ++ List.replicate (headerSize - p.length) 0, none, p.length⟩ := by
  by_cases hnil : p = []
  · subst hnil
    rfl
  · have hlength :
      (p ++ List.replicate (headerSize - p.length) (0 : UInt8)).length = headerSize := by
      rw [List.length_append, List.length_replicate]
      omega
    rw [ofPrefix, if_neg hnil, if_pos hp]
    dsimp only
    rw [hlength, if_neg (lt_irrefl _)]

/-- A complete header gives the buffer its size. -/
theorem resize_header {p : List UInt8} (hp : p.length = headerSize)
    (hmin : headerSize ≤ decodeSize p) :
    (⟨((⟨p, none, p.length⟩ : Datagram).resize (decodeSize p)).bytes, some (decodeService p),
      p.length⟩ : Datagram) = ofPrefix p := by
  have hnil : p ≠ [] := by
    rintro rfl
    exact absurd hp (by decide)
  rw [ofPrefix, if_neg hnil, if_neg (by omega), resize]
  dsimp only
  rw [List.take_of_length_le (by omega)]

/-- What a call does after some bytes is what it does with them. -/
theorem Receives.prepend {p bs : List UInt8} {conn conn' : Conn} {r : Received}
    {accesses : List Access} (hbs : bs ≠ []) (hagain : conn'.again = conn.again)
    (hall : bs ++ conn'.arriving.all = conn.arriving.all)
    (hin : ∀ a ∈ accesses, a.InBounds) (h : Receives (p ++ bs) conn' r) :
    Receives p conn { r with accesses := accesses ++ r.accesses } := by
  have hstream : p ++ bs ++ conn'.arriving.all = p ++ conn.arriving.all := by
    rw [List.append_assoc, hall]
  cases h with
  | more bs' hbs' hbegin houtcome hdatagram harriving hin' =>
    rw [List.append_assoc] at hbegin hdatagram
    refine .more (bs ++ bs') (by simp [hbs]) hbegin houtcome hdatagram ?_ ?_
    · rw [List.append_assoc, harriving, hall]
    · exact fun a ha => (List.mem_append.mp ha).elim (hin a) (hin' a)
  | error text houtcome hframe hin' =>
    rw [hstream, hagain] at hframe
    exact .error text houtcome hframe fun a ha => (List.mem_append.mp ha).elim (hin a) (hin' a)
  | undefined houtcome hframe hout =>
    rw [hstream, hagain] at hframe
    obtain ⟨a, ha, hbound⟩ := hout
    exact .undefined houtcome hframe ⟨a, List.mem_append_right _ ha, hbound⟩

/-- What is left of a stream after a header. -/
theorem drop_header {q rest : List UInt8} (hq : q.length = headerSize) :
    (q ++ rest).drop headerSize = rest := by
  rw [← hq, List.drop_left]

/-- The header, and what of the body has arrived with it. -/
theorem receives_header {p : List UInt8} (hp : p.length < headerSize) {conn : Conn}
    (hopen : conn.isOpen = true) : Receives p conn (recvfrom (ofPrefix p) conn) := by
  have hpos : 0 < headerSize - p.length := by omega
  have hsize : (p ++ List.replicate (headerSize - p.length) (0 : UInt8)).length = headerSize := by
    rw [List.length_append, List.length_replicate]
    omega
  have hin : ∀ a ∈ [Access.recv p.length headerSize (headerSize - p.length)], a.InBounds := by
    intro a ha
    obtain rfl := List.mem_singleton.mp ha
    exact ⟨hp.le, Or.inl rfl, by omega⟩
  have happend := conn.arriving.recv_append (headerSize - p.length)
  have hle := conn.arriving.length_recv_le (headerSize - p.length)
  rw [recvfrom, if_neg (by simp [hopen]), dend_ofPrefix, if_pos hp, resize_ofPrefix hp]
  dsimp only
  rw [hsize, Conn.recv]
  dsimp only
  set bs := (conn.arriving.recv (headerSize - p.length)).1
  by_cases hbs : bs = []
  · rw [if_pos hbs]
    have hall := (conn.arriving.recv_eq_nil_iff hpos).mp hbs
    rw [hbs, List.nil_append, hall] at happend
    refine .error _ rfl ?_ hin
    rw [hall, List.append_nil, frame, if_pos hp]
    exact Prod.ext rfl happend.symm
  · rw [if_neg hbs, write_append]
    dsimp only
    set conn' : Conn := { conn with arriving := (conn.arriving.recv (headerSize - p.length)).2 }
    have hnil : p ++ bs ≠ [] := by simp [hbs]
    by_cases hshort : (p ++ bs).length < headerSize
    · rw [if_pos hshort]
      refine .more bs hbs (Or.inl hshort) rfl ?_ happend hin
      rw [ofPrefix, if_neg hnil, if_pos hshort, List.length_append, Nat.sub_sub]
    · have hfull : (p ++ bs).length = headerSize := by
        rw [List.length_append] at hshort ⊢
        omega
      have hzeros : headerSize - p.length - bs.length = 0 := by
        rw [List.length_append] at hfull
        omega
      have hstream : p ++ conn.arriving.all = p ++ bs ++ conn'.arriving.all := by
        rw [List.append_assoc, happend]
      have hlong : ¬ (p ++ bs ++ conn'.arriving.all).length < headerSize := by
        rw [List.length_append]
        omega
      have hannounced := decodeSize_append hfull.ge conn'.arriving.all
      rw [if_neg hshort, hzeros, List.replicate_zero, List.append_nil]
      simp only [dend_resize]
      by_cases hmax : decodeSize (p ++ bs) > maxsize
      · rw [if_pos hmax]
        refine .error _ rfl ?_ hin
        rw [hstream, frame, if_neg hlong, hannounced, if_pos hmax, drop_header hfull]
      · rw [if_neg hmax]
        by_cases hsmall : decodeSize (p ++ bs) < headerSize
        · -- the buffer becomes smaller than the header that was read
          have hbuffer : ((⟨p ++ bs, none, (p ++ bs).length⟩ : Datagram).resize
              (decodeSize (p ++ bs))).bytes.length = decodeSize (p ++ bs) := by
            rw [resize, List.length_append, List.length_take, List.length_replicate]
            omega
          rw [if_neg (by omega), recvBody]
          dsimp only
          rw [hbuffer, if_pos (by omega)]
          refine .undefined rfl ?_ ⟨.decodeService (decodeSize (p ++ bs)), by simp, hsmall.not_ge⟩
          rw [hstream, frame, if_neg hlong, hannounced, if_neg hmax, if_pos hsmall,
            drop_header hfull]
        · have hheader := resize_header hfull (not_lt.mp hsmall)
          have hin' : ∀ a ∈ [Access.recv p.length headerSize (headerSize - p.length)] ++
              [Access.decodeService (decodeSize (p ++ bs))], a.InBounds := by
            intro a ha
            rcases List.mem_append.mp ha with ha | ha
            · exact hin a ha
            · obtain rfl := List.mem_singleton.mp ha
              exact not_lt.mp hsmall
          rw [hheader]
          by_cases hempty : (p ++ bs).length = decodeSize (p ++ bs)
          · rw [if_pos hempty]
            exact .more bs hbs (Or.inr ⟨hfull.ge, hempty.le, not_lt.mp hmax⟩) rfl rfl happend hin'
          · rw [if_neg hempty]
            have hagain : conn'.again = conn.again := rfl
            exact (receives_recvBody hfull.ge (by omega) (not_lt.mp hmax) conn').prepend hbs hagain
              happend hin'

/-- A call of `recvfrom` for a datagram that is not complete. -/
theorem receives_recvfrom {p : List UInt8} (hp : IsPrefix p) {conn : Conn}
    (hopen : conn.isOpen = true) (hcompleted : (ofPrefix p).completed = false) :
    Receives p conn (recvfrom (ofPrefix p) conn) := by
  rcases hp with hshort | ⟨hlong, hle, hmax⟩
  · exact receives_header hshort hopen
  · have hne : p.length ≠ decodeSize p := by
      intro heq
      rw [(completed_ofPrefix hlong hle).mpr heq] at hcompleted
      cases hcompleted
    rw [recvfrom, if_neg (by simp [hopen]), dend_ofPrefix, if_neg hlong.not_gt]
    exact receives_recvBody hlong (by omega) hmax conn

/-- What is received first of a stream that begins with a complete datagram. -/
theorem frame_of_completed {p : List UInt8} (hlong : headerSize ≤ p.length)
    (hcompleted : p.length = decodeSize p) (hmax : decodeSize p ≤ maxsize) (again : Bool)
    (rest : List UInt8) :
    frame again (p ++ rest) = (.datagram (ofPrefix p), rest) := by
  have hnil : p ≠ [] := by
    rintro rfl
    exact absurd hlong (by decide)
  have hsize := decodeSize_append hlong rest
  have hle : p.length ≤ (p ++ rest).length := by simp
  rw [frame, if_neg (by omega), hsize, if_neg (by omega), if_neg (by omega), if_neg (by omega),
    ← hcompleted, List.take_left, List.drop_left, decodeService_append hlong, ofPrefix, if_neg hnil,
    if_neg hlong.not_gt, ← hcompleted, Nat.sub_self, List.replicate_zero, List.append_nil]

/-- What `client::recv` does with a stream. -/
structure Frames (conn : Conn) (bytes : List UInt8) (r : Recv) : Prop where
  frame : frame conn.again bytes = (r.reply, r.conn.arriving.all)
  again : r.conn.again = conn.again
  isOpen : ∀ d, r.reply = .datagram d → r.conn.isOpen = true
  inBounds : (∀ a ∈ r.accesses, a.InBounds) ↔ r.reply ≠ .undefined

/-- The receiving loop ends with a frame of the stream, or waits for more of it. -/
theorem frames_recvLoop {fuel : ℕ} {p : List UInt8} {conn : Conn} (hp : IsPrefix p)
    (hcompleted : (ofPrefix p).completed = false) (hopen : conn.isOpen = true)
    (hfuel : conn.arriving.all.length < fuel) :
    Frames conn (p ++ conn.arriving.all) (recvLoop fuel (ofPrefix p) conn) := by
  induction fuel generalizing p conn with
  | zero => omega
  | succ fuel ih =>
    obtain ⟨hopen', hagain⟩ := recvfrom_conn (ofPrefix p) conn
    rw [recvLoop]
    dsimp only
    cases receives_recvfrom hp hopen hcompleted with
    | more bs hbs hbegin houtcome hdatagram harriving hin =>
      rw [houtcome]
      dsimp only
      rw [hdatagram]
      rw [← harriving, ← List.append_assoc]
      cases hdone : (ofPrefix (p ++ bs)).completed with
      | true =>
        have hlong : headerSize ≤ (p ++ bs).length := by
          by_contra hshort
          rw [completed_ofPrefix_of_lt (not_le.mp hshort)] at hdone
          cases hdone
        obtain hshort | ⟨-, hle, hmax⟩ := hbegin
        · omega
        rw [if_pos rfl]
        refine ⟨?_, hagain, fun _ _ => hopen'.trans hopen, ?_⟩
        · exact frame_of_completed hlong ((completed_ofPrefix hlong hle).mp hdone) hmax _ _
        · exact iff_of_true hin (by simp)
      | false =>
        have hlength := congrArg List.length harriving
        have hpos := List.length_pos_iff.mpr hbs
        rw [List.length_append] at hlength
        obtain ⟨hframe, hagain', hopened, hbounds⟩ :=
          ih hbegin hdone (hopen'.trans hopen) (by omega)
        rw [if_neg (by simp)]
        refine ⟨hagain ▸ hframe, hagain'.trans hagain, hopened, ?_⟩
        dsimp only
        rw [← hbounds]
        simp only [List.mem_append, or_imp, forall_and, and_iff_right_iff_imp]
        exact fun _ => hin
    | error text houtcome hframe hin =>
      rw [houtcome]
      exact ⟨hframe, hagain, by simp, iff_of_true hin (by simp)⟩
    | undefined houtcome hframe hout =>
      rw [houtcome]
      refine ⟨hframe, hagain, by simp, iff_of_false ?_ (by simp)⟩
      obtain ⟨a, ha, hbound⟩ := hout
      exact fun hin => hbound (hin a ha)

/-- **What is received does not depend on how the stream is cut.** -/
theorem frames_clientRecv {conn : Conn} (hopen : conn.isOpen = true) :
    Frames conn conn.arriving.all (clientRecv conn) :=
  frames_recvLoop (p := []) (Or.inl (by decide)) rfl hopen (Nat.lt_succ_self _)

/-! ## The datagrams that were sent -/

/-- A datagram with everything there: its size is the one it announces, and it is not
too great. -/
structure Datagram.Complete (d : Datagram) : Prop where
  min : headerSize ≤ d.bytes.length
  max : d.bytes.length ≤ maxsize
  size : decodeSize d.bytes = d.bytes.length
  service : d.service = some (decodeService d.bytes)
  dend : d.dend = d.bytes.length

/-- What the constructors make. -/
inductive Datagram.Built : Datagram → Prop where
  | ofService (service : UInt16) : Built (ofService service)
  | ofUInt16 (service payload : UInt16) : Built (ofUInt16 service payload)
  | ofString {service : UInt16} {payload : List UInt8} {d : Datagram}
    (h : ofString service payload = some d) : Built d

/-- A datagram with a payload that fits is complete. -/
theorem Datagram.complete_ofPayload (service : UInt16) {payload : List UInt8}
    (h : headerSize + payload.length < maxsize) : (ofPayload service payload).Complete := by
  have hlength : (ofPayload service payload).bytes.length = headerSize + payload.length := by
    simp only [ofPayload, headerSize, List.length_append, leBytes_length]
  refine ⟨by omega, by omega, ?_, ?_, hlength.symm⟩
  · have hsize : (ofPayload service payload).bytes.take 4 =
        leBytes 4 (headerSize + payload.length) := by
      rw [ofPayload, List.append_assoc]
      exact List.take_left' (leBytes_length 4 _)
    rw [decodeSize, hsize, hlength]
    exact ofLeBytes_leBytes (by unfold maxsize at h; omega)
  · have hservice : ((ofPayload service payload).bytes.drop 4).take 2 =
        leBytes 2 service.toNat := by
      rw [ofPayload, List.append_assoc]
      dsimp only
      rw [List.drop_left' (leBytes_length 4 _)]
      exact List.take_left' (leBytes_length 2 _)
    have hlt : service.toNat < 256 ^ 2 := service.toNat_lt
    rw [decodeService, hservice, ofLeBytes_leBytes hlt, UInt16.ofNat_toNat]
    rfl

/-- Datagrams that the constructors build are complete. -/
theorem Datagram.Built.complete {d : Datagram} (h : d.Built) : d.Complete := by
  cases h with
  | ofService service => exact complete_ofPayload service (by decide)
  | ofUInt16 service payload =>
    exact complete_ofPayload service (by rw [leBytes_length]; decide)
  | ofString hd =>
    rw [Datagram.ofString] at hd
    split_ifs at hd with hlt
    obtain rfl := Option.some.inj hd
    exact complete_ofPayload _ hlt

/-- A complete datagram is what its bytes are received as. -/
theorem Datagram.Complete.eq_ofPrefix {d : Datagram} (h : d.Complete) : d = ofPrefix d.bytes := by
  obtain ⟨bytes, service, dend⟩ := d
  obtain ⟨hmin, hmax, hsize, hservice, hdend⟩ := h
  dsimp only at hmin hmax hsize hservice hdend ⊢
  have hnil : bytes ≠ [] := by
    rintro rfl
    exact absurd hmin (by decide)
  rw [ofPrefix, if_neg hnil, if_neg hmin.not_gt, hsize, Nat.sub_self, List.replicate_zero,
    List.append_nil, hservice, hdend]

/-- One datagram is received, and nothing of what comes after it. -/
theorem clientRecv_of_complete {d : Datagram} (hd : d.Complete) {conn : Conn}
    (hopen : conn.isOpen = true) {rest : List UInt8}
    (hall : conn.arriving.all = d.bytes ++ rest) :
    (clientRecv conn).reply = .datagram d ∧ (clientRecv conn).conn.isOpen = true ∧
      (clientRecv conn).conn.arriving.all = rest := by
  have hframes := frames_clientRecv hopen
  have hframe := hframes.frame
  rw [hall, frame_of_completed hd.min hd.size.symm (hd.size ▸ hd.max), ← hd.eq_ofPrefix] at hframe
  obtain ⟨hreply, hrest⟩ := Prod.mk.inj hframe
  exact ⟨hreply.symm, hframes.isOpen d hreply.symm, hrest.symm⟩

/-- Receives a number of datagrams; `none` when one of them does not arrive. -/
def receive : ℕ → Conn → Option (List Datagram × Conn)
  | 0, conn => some ([], conn)
  | n + 1, conn =>
    match (clientRecv conn).reply with
    | .datagram d => (receive n (clientRecv conn).conn).map fun r => (d :: r.1, r.2)
    | _ => none

/-- Complete datagrams that were written one after the other are received so. -/
theorem receive_of_complete {ds : List Datagram} (hds : ∀ d ∈ ds, d.Complete) {conn : Conn}
    (hopen : conn.isOpen = true) {rest : List UInt8}
    (hall : conn.arriving.all = ds.flatMap Datagram.bytes ++ rest) :
    ∃ conn', receive ds.length conn = some (ds, conn') ∧ conn'.isOpen = true ∧
      conn'.arriving.all = rest := by
  induction ds generalizing conn with
  | nil => exact ⟨conn, rfl, hopen, hall⟩
  | cons d ds ih =>
    rw [List.flatMap_cons, List.append_assoc] at hall
    obtain ⟨hreply, hopen', hrest⟩ :=
      clientRecv_of_complete (hds d List.mem_cons_self) hopen hall
    obtain ⟨conn', hreceive, hconn'⟩ :=
      ih (fun e he => hds e (List.mem_cons_of_mem d he)) hopen' hrest
    refine ⟨conn', ?_, hconn'⟩
    rw [List.length_cons, receive, hreply]
    dsimp only
    rw [hreceive, Option.map_some]

/-- **Datagrams are reassembled.** However a connection cuts what is written on it,
the datagrams that the constructors made are received as they are, one after the
other, and after each number of them what is left is the ones that come next. -/
theorem reassembled {ds : List Datagram} (hds : ∀ d ∈ ds, d.Built) {conn : Conn}
    (hopen : conn.isOpen = true) {rest : List UInt8}
    (hall : conn.arriving.all = ds.flatMap Datagram.bytes ++ rest) {n : ℕ} (hn : n ≤ ds.length) :
    ∃ conn', receive n conn = some (ds.take n, conn') ∧
      conn'.arriving.all = (ds.drop n).flatMap Datagram.bytes ++ rest := by
  have hsplit : conn.arriving.all = (ds.take n).flatMap Datagram.bytes ++
      ((ds.drop n).flatMap Datagram.bytes ++ rest) := by
    rw [hall, ← List.append_assoc, ← List.flatMap_append, List.take_append_drop]
  obtain ⟨conn', hreceive, -, hrest⟩ := receive_of_complete
    (fun d hd => (hds d (List.mem_of_mem_take hd)).complete) hopen hsplit
  rw [List.length_take_of_le hn] at hreceive
  exact ⟨conn', hreceive, hrest⟩

/-- An empty datagram and one with two bytes, of which the first byte arrives alone,
then the rest of the first together with the beginning of the second. -/
def cutInThree : Conn where
  isOpen := true
  arriving := ⟨[[6], [0, 0, 0, 1, 0, 8, 0, 0], [0, 2, 0, 7, 9]], by simp⟩
  again := false

/-- Two datagrams cut in three pieces are received whole. -/
theorem reassembled_cutInThree :
    ∃ conn', receive 2 cutInThree =
        some ([Datagram.ofService 1, Datagram.ofUInt16 2 0x0907], conn') ∧
      conn'.arriving.all = [] := by
  have hbuilt : ∀ d ∈ [Datagram.ofService 1, Datagram.ofUInt16 2 0x0907], d.Built := by
    intro d hd
    rcases List.mem_cons.mp hd with rfl | hd
    · exact .ofService 1
    · obtain rfl := List.mem_singleton.mp hd
      exact .ofUInt16 2 0x0907
  have hall : cutInThree.arriving.all =
      [Datagram.ofService 1, Datagram.ofUInt16 2 0x0907].flatMap Datagram.bytes ++ [] := by
    decide
  exact reassembled hbuilt rfl hall (n := 2) le_rfl

end AcCore.Gov.Socket
