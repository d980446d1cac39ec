import LinuxExercise.Servers.Select

/-!
# What a round of the `select` server serves

`select` returns a subset `R` of `allset` and its size.  The scan over `client[]` stops after
as many services as are left of that number, so that it serves all of `R` only because the
slots hold the connections, each once, and because neither the slot that `accept` fills nor the
slots that are emptied during the scan are among those still to be served.

A connection that arrives when every slot is occupied would end the server in the middle of the
round.  It does not come to that: the watched descriptors fit an `fd_set`, the listening socket
is one of them, and so there are fewer connections than slots.  Beyond the range of an `fd_set`
the macros are undefined, and `SelectDescriptors` is about when the server gets there.
-/

namespace LinuxExercise.Servers

open SlotTable

/-- What the calls write to `fd`, one entry for each `write`. -/
def writesTo (fd : ℤ) (calls : List Call) : List (List UInt8) :=
  calls.filterMap fun
    | .write fd' buf count => if fd' = fd then some (buf.take count) else none
    | _ => none

/-- The reply to what was read: its upper-case, nothing at end of file. -/
def reply : ReadResult → List (List UInt8)
  | .data bytes => [bytes.map toupper]
  | _ => []

theorem writesTo_append (fd : ℤ) (cs ds : List Call) :
    writesTo fd (cs ++ ds) = writesTo fd cs ++ writesTo fd ds :=
  List.filterMap_append

namespace Select

/-- Nothing fails, `accept` returns a descriptor that is not open and fits an `fd_set`, and what
is read fits `buf`. -/
structure Reports (s : Select) (r : Round) : Prop extends Benign s r where
  valid : ∀ i, (r.read i).Valid

theorem Reports.fresh {s : Select} {r : Round} (hr : Reports s r) (hlisten : s.listenfd ∈ r.rset) :
    0 ≤ r.connfd ∧ r.connfd ≠ s.listenfd ∧ r.connfd ∉ s.connections :=
  ⟨(hr.accept hlisten).1, (hr.accept hlisten).2.2⟩

theorem selectInv_of_reports {listenfd : ℤ} {h : List (Event Select Round)} {s : Select}
    (hrun : (server Reports listenfd).Run h s) : s.exited = none → SelectInv s :=
  selectInv_of_fresh (fun _ _ hr => hr.fresh) hrun

/-! ## One service -/

/-- The calls that serve one connection. -/
def service (sockfd : ℤ) (r : ReadResult) : List Call :=
  if r.n = 0 then [.read sockfd, .close sockfd] else [.read sockfd, echo sockfd r]

theorem serveClient_calls (read : ℕ → ReadResult) (i : ℕ) (s : Select) :
    (serveClient read i s).2 = service (s.client i) (read i) := by
  unfold serveClient service
  simp only
  split <;> rfl

theorem serveClient_other (read : ℕ → ReadResult) {i j : ℕ} (hij : j ≠ i) (s : Select) :
    (serveClient read i s).1.client j = s.client j := by
  unfold serveClient
  simp only
  split
  · exact Function.update_of_ne hij ..
  · rfl

theorem readsOf_service (sockfd : ℤ) (r : ReadResult) : readsOf (service sockfd r) = [sockfd] := by
  unfold service
  split <;> rfl

theorem count_accept_service (sockfd : ℤ) (r : ReadResult) :
    (service sockfd r).count .accept = 0 := by
  unfold service
  split <;> simp [echo]

/-- A service replies to its own descriptor, with exactly the bytes read in upper case. -/
theorem writesTo_service {r : ReadResult} (hn : 0 ≤ r.n) (hvalid : r.Valid) (fd sockfd : ℤ) :
    writesTo fd (service sockfd r) = if sockfd = fd then reply r else [] := by
  cases r with
  | data bytes =>
    obtain ⟨buf, count, hecho, htake⟩ := echo_data hvalid sockfd
    rw [service, if_neg (data_n_ne_zero hvalid), hecho]
    by_cases hfd : sockfd = fd
    · simp [writesTo, reply, hfd, htake]
    · simp [writesTo, hfd]
  | eof =>
    have hservice : service sockfd .eof = [.read sockfd, .close sockfd] := rfl
    rw [hservice]
    split <;> rfl
  | error e => exact absurd hn (by simp [ReadResult.n])

/-! ## The calls of several services -/

section Services

variable (client : ℕ → ℤ) (read : ℕ → ReadResult)

/-- The calls that serve the listed slots. -/
def services (is : List ℕ) : List Call := is.flatMap fun i => service (client i) (read i)

theorem readsOf_services (is : List ℕ) : readsOf (services client read is) = is.map client := by
  induction is with
  | nil => rfl
  | cons i is ih =>
    rw [services, List.flatMap_cons, readsOf_append, readsOf_service, List.map_cons]
    exact congrArg _ ih

theorem count_accept_services (is : List ℕ) : (services client read is).count .accept = 0 := by
  induction is with
  | nil => rfl
  | cons i is ih =>
    rw [services, List.flatMap_cons, List.count_append, count_accept_service]
    exact (Nat.zero_add _).trans ih

variable {client read}

theorem writesTo_services (hread : ∀ i, 0 ≤ (read i).n ∧ (read i).Valid) (fd : ℤ)
    (is : List ℕ) : writesTo fd (services client read is) =
      (is.filter fun i => client i = fd).flatMap fun i => reply (read i) := by
  induction is with
  | nil => rfl
  | cons i is ih =>
    rw [services, List.flatMap_cons, writesTo_append, writesTo_service (hread i).1 (hread i).2]
    show _ ++ writesTo fd (services client read is) = _
    rw [ih, List.filter_cons]
    by_cases hi : client i = fd
    · rw [if_pos hi, if_pos (by simpa using hi), List.flatMap_cons]
    · rw [if_neg hi, if_neg (by simpa using hi), List.nil_append]

/-- What a served slot's descriptor is sent is the reply to what was read from it. -/
theorem writesTo_services_of_mem (hread : ∀ i, 0 ≤ (read i).n ∧ (read i).Valid) {is : List ℕ}
    (hnodup : (is.map client).Nodup) {i : ℕ} (hi : i ∈ is) :
    writesTo (client i) (services client read is) = reply (read i) := by
  have hone : (is.filter fun j => client j = client i) = [i] := by
    have hinj := List.inj_on_of_nodup_map hnodup
    have hfilter : (is.filter fun j => client j = client i) = is.filter fun j => j = i := by
      refine List.filter_congr fun j hj => decide_eq_decide.mpr ⟨fun heq => ?_, congrArg client⟩
      exact hinj hj hi heq
    rw [hfilter, List.filter_eq, List.count_eq_one_of_mem hnodup.of_map hi]
    rfl
  rw [writesTo_services hread, hone, List.flatMap_singleton]

theorem writesTo_services_of_notMem (hread : ∀ i, 0 ≤ (read i).n ∧ (read i).Valid)
    {is : List ℕ} {fd : ℤ} (hfd : fd ∉ is.map client) :
    writesTo fd (services client read is) = [] := by
  have hnone : (is.filter fun j => client j = fd) = [] := by
    rw [List.filter_eq_nil_iff]
    intro j hj heq
    exact hfd (List.mem_map.mpr ⟨j, hj, of_decide_eq_true heq⟩)
  rw [writesTo_services hread, hnone, List.flatMap_nil]

end Services

/-! ## The scan -/

/-- The slots whose descriptor is in `rset`. -/
def readySlots (rset : Finset ℤ) (s : Select) : List ℕ :=
  readyFrom (ready rset) s 0 (s.maxi + 1).toNat

/-- The ready slots hold the connections in `rset`, each in one slot. -/
theorem SelectInv.readySlots {s : Select} (h : SelectInv s) (rset : Finset ℤ) :
    ((readySlots rset s).map s.client).Nodup ∧
      (∀ i, i ∈ readySlots rset s ↔ 0 ≤ s.client i ∧ s.client i ∈ rset) ∧
      ∀ fd, fd ∈ (readySlots rset s).map s.client ↔ fd ∈ rset ∧ fd ∈ s.connections := by
  have hmem : ∀ i, i ∈ Select.readySlots rset s ↔ 0 ≤ s.client i ∧ s.client i ∈ rset := by
    intro i
    rw [Select.readySlots, readyFrom, ← List.range_eq_range', List.mem_filter, List.mem_range,
      ready, decide_eq_true_eq, not_lt]
    refine and_iff_right_of_imp fun hi => ?_
    exact h.table.below i (not_lt.mpr hi.1)
  refine ⟨?_, hmem, fun fd => ?_⟩
  · refine List.Nodup.map_on (fun i hi j _ hij => ?_) ?_
    · exact h.table.distinct i j (not_lt.mpr ((hmem i).1 hi).1) hij
    · exact (List.nodup_range' ..).filter _
  · have hlisted := h.table.mem_iff fd
    rw [Finset.mem_coe] at hlisted
    rw [List.mem_map, hlisted]
    constructor
    · rintro ⟨i, hi, rfl⟩
      obtain ⟨hpos, hready⟩ := (hmem i).1 hi
      exact ⟨hready, not_lt.mpr hpos, i, rfl⟩
    · rintro ⟨hready, hpos, i, rfl⟩
      exact ⟨i, (hmem i).2 ⟨not_lt.mp hpos, hready⟩, rfl⟩

/-- As many slots are ready as descriptors other than the listening socket were reported. -/
theorem SelectInv.length_readySlots {s : Select} (h : SelectInv s) {rset : Finset ℤ}
    (hsub : rset ⊆ s.allset) :
    (Select.readySlots rset s).length = (rset.erase s.listenfd).card := by
  obtain ⟨hnodup, -, hmem⟩ := h.readySlots rset
  have hset : ((Select.readySlots rset s).map s.client).toFinset = rset.erase s.listenfd := by
    ext fd
    rw [List.mem_toFinset, hmem, Finset.mem_erase, and_comm]
    refine and_congr_left fun hready => ⟨?_, fun hne => ?_⟩
    · rintro hconn rfl
      exact h.listening hconn
    · have hall := hsub hready
      rw [h.watched, Finset.mem_insert] at hall
      exact hall.resolve_left hne
  rw [← hset, List.toFinset_card_of_nodup hnodup, List.length_map]

/-- Serving distinct slots makes the calls of each, with the descriptors the slots had at the
beginning. -/
theorem serveAll_calls (read : ℕ → ReadResult) {is : List ℕ} (s : Select) (hnodup : is.Nodup) :
    (serveAll (serveClient read) (fun _ => false) is s).2 = services s.client read is := by
  induction is generalizing s with
  | nil => rfl
  | cons i is ih =>
    obtain ⟨hi, hnodup'⟩ := List.nodup_cons.mp hnodup
    have hsame : services (serveClient read i s).1.client read is =
        services s.client read is := by
      refine List.flatMap_congr fun j hj => ?_
      have hji : j ≠ i := fun hji => hi (hji ▸ hj)
      rw [serveClient_other read hji]
    unfold serveAll
    rw [if_neg Bool.false_ne_true]
    simp only
    rw [ih _ hnodup', hsame, serveClient_calls]
    rfl

/-- **The scan serves the ready slots, in order**, when the count that is left is right. -/
theorem scanClients_eq {s : Select} {r : Round} {nready : ℤ}
    (hn : nready = (readySlots r.rset s).length) : scanClients r nready s =
      serveAll (serveClient r.read) (fun _ => false) (readySlots r.rset s) s := by
  have hlater : ∀ (s : Select) (i j : ℕ), ready r.rset s i = true → i < j →
      ready r.rset (serveClient r.read i s).1 j = ready r.rset s j := by
    intro s i j _ hij
    rw [ready, ready, serveClient_other r.read hij.ne' s]
  exact scan_eq_serveAll hlater _ _ _ _ hn

/-! ## The round -/

/-- No slot is free. -/
def TableFull (s : Select) : Prop := ∀ i < fdSetSize, 0 ≤ s.client i

theorem tableFull_iff {s : Select} :
    firstVacant vacant s.client fdSetSize 0 = fdSetSize ↔ TableFull s := by
  rw [firstVacant_eq_iff]
  exact forall₂_congr fun i _ => not_lt

/-- What `accept` does to the variables when there is a free slot. -/
theorem acceptClient_room {s : Select} (hroom : ¬ TableFull s) {connfd : ℤ} (hpos : 0 ≤ connfd) :
    (acceptClient connfd s).exited = s.exited ∧
      (acceptClient connfd s).listenfd = s.listenfd ∧
      (acceptClient connfd s).allset = insert connfd s.allset ∧
      (acceptClient connfd s).connections = insert connfd s.connections ∧
      ∀ i, 0 ≤ s.client i → (acceptClient connfd s).client i = s.client i := by
  have hfound : firstVacant vacant s.client fdSetSize 0 ≠ fdSetSize :=
    fun hfull => hroom (tableFull_iff.mp hfull)
  have hslot := vacant_of_found hfound
  unfold acceptClient
  rw [if_neg hfound, if_neg (not_lt.mpr hpos)]
  generalize firstVacant vacant s.client fdSetSize 0 = j at hslot
  refine ⟨rfl, rfl, rfl, rfl, fun i hi => ?_⟩
  have hij : i ≠ j := by
    rintro rfl
    exact absurd hi (not_le.mpr hslot)
  exact Function.update_of_ne hij ..

/-- With every slot occupied the server exits after `accept`, whose result it does not enter. -/
theorem round_full_eq {s : Select} {r : Round} (hn : ¬ r.nready < 0)
    (hlisten : s.listenfd ∈ r.rset) (hfull : TableFull s) :
    round r s = ({ s with
      connections := if r.connfd < 0 then s.connections else insert r.connfd s.connections
      exited := some (-2) }, [.accept]) := by
  have hacc : acceptClient r.connfd s = { s with
      connections := if r.connfd < 0 then s.connections else insert r.connfd s.connections
      exited := some (-2) } := by
    rw [acceptClient, if_pos (tableFull_iff.mpr hfull)]
  rw [round, if_neg hn, if_pos hlisten, hacc]
  exact if_pos (.inl rfl)

theorem round_full {s : Select} {r : Round} (hn : ¬ r.nready < 0) (hlisten : s.listenfd ∈ r.rset)
    (hfull : TableFull s) :
    (round r s).2 = [.accept] ∧ (round r s).1.exited = some (-2) := by
  rw [round_full_eq hn hlisten hfull]
  exact ⟨rfl, rfl⟩

/-- The state in which the scan begins. -/
def admitted (r : Round) (s : Select) : Select :=
  if s.listenfd ∈ r.rset then acceptClient r.connfd s else s

/-- Otherwise it accepts if it is to, and leaves the occupied slots as they are. -/
theorem SelectInv.admitted {s : Select} (h : SelectInv s) {r : Round} (hsub : r.rset ⊆ s.allset)
    (haccept : s.listenfd ∈ r.rset →
      0 ≤ r.connfd ∧ r.connfd ≠ s.listenfd ∧ r.connfd ∉ s.connections)
    (hrunning : s.exited = none) (hroom : ¬ (s.listenfd ∈ r.rset ∧ TableFull s)) :
    SelectInv (admitted r s) ∧ (admitted r s).exited = none ∧
      (admitted r s).listenfd = s.listenfd ∧ r.rset ⊆ (admitted r s).allset ∧
      (∀ i, 0 ≤ s.client i → (admitted r s).client i = s.client i) ∧
      ∀ fd ∈ r.rset, fd ∈ (admitted r s).connections ↔ fd ∈ s.connections := by
  unfold Select.admitted
  by_cases hlisten : s.listenfd ∈ r.rset
  · have hfree : ¬ TableFull s := fun hfull => hroom ⟨hlisten, hfull⟩
    obtain ⟨hpos, hne, hnew⟩ := haccept hlisten
    obtain ⟨hexit, hfd, hall, hconn, hkept⟩ := acceptClient_room hfree hpos
    have hrset : r.connfd ∉ r.rset := by
      intro hmem
      have hopen := hsub hmem
      rw [h.watched, Finset.mem_insert] at hopen
      exact hopen.elim hne hnew
    rw [if_pos hlisten]
    refine ⟨h.acceptClient hpos hnew hne (hexit.trans hrunning), hexit.trans hrunning, hfd, ?_,
      hkept, fun fd hmem => ?_⟩
    · rw [hall]
      exact hsub.trans (Finset.subset_insert _ _)
    · have hold : fd ≠ r.connfd := fun heq => hrset (heq ▸ hmem)
      rw [hconn, Finset.mem_insert, or_iff_right hold]
  · rw [if_neg hlisten]
    exact ⟨h, hrunning, rfl, hsub, fun _ _ => rfl, fun _ _ => Iff.rfl⟩

/-- It then serves the ready slots, if as many descriptors are left as slots are ready. -/
theorem round_eq {s : Select} {r : Round} (hn : 0 ≤ r.nready)
    (hexit : (admitted r s).exited = none)
    (hleft : (if s.listenfd ∈ r.rset then r.nready - 1 else r.nready) =
      (readySlots r.rset (admitted r s)).length) :
    round r s =
      ((serveAll (serveClient r.read) (fun _ => false) (readySlots r.rset (admitted r s))
          (admitted r s)).1,
        (if s.listenfd ∈ r.rset then [.accept] else []) ++
          (serveAll (serveClient r.read) (fun _ => false) (readySlots r.rset (admitted r s))
            (admitted r s)).2) := by
  unfold round
  rw [if_neg (not_lt.mpr hn)]
  unfold admitted at hexit hleft ⊢
  by_cases hlisten : s.listenfd ∈ r.rset
  · rw [if_pos hlisten] at hexit
    rw [if_pos hlisten, if_pos hlisten] at hleft
    rw [if_pos hlisten, if_pos hlisten, if_pos hlisten]
    by_cases hlast : r.nready - 1 = 0
    · -- Nothing but the listening socket was reported: no slot is ready.
      have hnil : readySlots r.rset (acceptClient r.connfd s) = [] := by
        rw [← List.length_eq_zero_iff]
        omega
      rw [if_pos (.inr hlast), hnil]
      rfl
    · have hmore : ¬ ((acceptClient r.connfd s).exited.isSome ∨ r.nready - 1 = 0) := by
        rw [hexit, not_or]
        exact ⟨Bool.false_ne_true, hlast⟩
      rw [if_neg hmore, scanClients_eq hleft]
      rfl
  · rw [if_neg hlisten, if_neg hlisten] at hleft
    rw [if_neg hlisten, if_neg hlisten, if_neg hlisten]
    exact scanClients_eq hleft

/-- The report of `select` leaves as many descriptors as slots are ready. -/
theorem SelectInv.left_eq {s s' : Select} (h : SelectInv s') (hfd : s'.listenfd = s.listenfd)
    {r : Round} (hsub : r.rset ⊆ s'.allset) (hcard : r.nready = r.rset.card) :
    (if s.listenfd ∈ r.rset then r.nready - 1 else r.nready) =
      (Select.readySlots r.rset s').length := by
  rw [h.length_readySlots hsub, hfd]
  split
  · next hlisten =>
    have hpred := Finset.card_erase_add_one hlisten
    omega
  · next hlisten => rw [Finset.erase_eq_of_notMem hlisten, hcard]

theorem serveAll_exited (read : ℕ → ReadResult) (is : List ℕ) (s : Select) :
    (serveAll (serveClient read) (fun _ => false) is s).1.exited = s.exited := by
  induction is generalizing s with
  | nil => rfl
  | cons i is ih => exact (ih _).trans (serveClient_exited read i s)

/-- The round accepts once if the listening socket is in `rset`, reads once from each
connection in `rset` and from nothing else, replies to each with the upper-case of the bytes
read from it, and goes back to `select`. -/
structure ServesReady (s : Select) (r : Round) : Prop where
  accepts : (round r s).2.count .accept = if s.listenfd ∈ r.rset then 1 else 0
  reads : ∀ fd, (readsOf (round r s).2).count fd =
    if fd ∈ r.rset ∧ fd ∈ s.connections then 1 else 0
  accepted : s.listenfd ∈ r.rset → r.connfd ∉ readsOf (round r s).2
  replies : ∀ i, 0 ≤ s.client i → s.client i ∈ r.rset →
    writesTo (s.client i) (round r s).2 = reply (r.read i)
  silent : ∀ fd, ¬ (fd ∈ r.rset ∧ fd ∈ s.connections) → writesTo fd (round r s).2 = []
  continues : (round r s).1.exited = none

theorem SelectInv.servesReady {s : Select} (h : SelectInv s) {r : Round} (hr : Reports s r)
    (hrunning : s.exited = none) (hn : 0 ≤ r.nready)
    (hroom : ¬ (s.listenfd ∈ r.rset ∧ TableFull s)) : ServesReady s r := by
  obtain ⟨hsub, hcard⟩ := hr.select hn
  have hread : ∀ i, 0 ≤ (r.read i).n ∧ (r.read i).Valid := fun i => ⟨hr.read i, hr.valid i⟩
  obtain ⟨hinv, hexit', hfd, hsub', hkept, hconn⟩ :=
    h.admitted hsub (fun hlisten => hr.fresh hlisten) hrunning hroom
  have hround := Select.round_eq hn hexit' (hinv.left_eq hfd hsub' hcard)
  generalize Select.admitted r s = s' at hround hinv hexit' hkept hconn
  obtain ⟨hnodup, hslot, hmem⟩ := hinv.readySlots r.rset
  have hcalls : (Select.round r s).2 = (if s.listenfd ∈ r.rset then [.accept] else []) ++
      services s'.client r.read (Select.readySlots r.rset s') := by
    rw [hround, serveAll_calls r.read s' hnodup.of_map]
  have hexit : (Select.round r s).1.exited = none := by
    rw [hround]
    exact (serveAll_exited r.read _ s').trans hexit'
  have hserved : ∀ fd, fd ∈ (Select.readySlots r.rset s').map s'.client ↔
      fd ∈ r.rset ∧ fd ∈ s.connections := by
    intro fd
    rw [hmem]
    exact and_congr_right fun hfd => hconn fd hfd
  have hreads : readsOf (Select.round r s).2 =
      (Select.readySlots r.rset s').map s'.client := by
    rw [hcalls, readsOf_append, readsOf_services]
    split <;> rfl
  have hwrites : ∀ fd, writesTo fd (Select.round r s).2 =
      writesTo fd (services s'.client r.read (Select.readySlots r.rset s')) := by
    intro fd
    rw [hcalls, writesTo_append]
    split <;> rfl
  refine ⟨?_, fun fd => ?_, fun hlisten hread => ?_, fun i hi hready => ?_, fun fd hfd => ?_,
    hexit⟩
  · rw [hcalls, List.count_append, count_accept_services]
    split <;> rfl
  · rw [hreads, hnodup.count]
    exact if_congr (hserved fd) rfl rfl
  · rw [hreads, hserved] at hread
    exact (hr.fresh hlisten).2.2 hread.2
  · rw [hwrites, ← hkept i hi]
    refine writesTo_services_of_mem hread hnodup ((hslot i).2 ?_)
    rw [hkept i hi]
    exact ⟨hi, hready⟩
  · rw [hwrites]
    exact writesTo_services_of_notMem hread fun hmem' => hfd ((hserved fd).1 hmem')

/-! ## The watched descriptors fit an `fd_set` -/

/-- Every watched descriptor has a bit in an `fd_set`. -/
def Fits (s : Select) : Prop := ∀ fd ∈ s.allset, 0 ≤ fd ∧ fd < fdSetSize

/-- Descriptors below `FD_SETSIZE`, the listening socket among them, do not fill the table. -/
theorem SelectInv.not_tableFull {s : Select} (h : SelectInv s) (hfits : Fits s) :
    ¬ TableFull s := by
  intro hfull
  have hmaps : ∀ i ∈ Finset.range fdSetSize, s.client i ∈ s.connections := by
    intro i hi
    have hocc : ¬ vacant (s.client i) := not_lt.mpr (hfull i (Finset.mem_range.mp hi))
    have hlisted := (h.table.mem_iff (s.client i)).2 ⟨hocc, i, rfl⟩
    exact hlisted
  have hinj : Set.InjOn s.client (Finset.range fdSetSize) := by
    intro i hi j _ hij
    have hi' := Finset.mem_range.mp (Finset.mem_coe.mp hi)
    exact h.table.distinct i j (not_lt.mpr (hfull i hi')) hij
  have hmany := Finset.card_le_card_of_injOn s.client hmaps hinj
  have hall : s.allset.card = s.connections.card + 1 := by
    rw [h.watched, Finset.card_insert_of_notMem h.listening]
  have hfew : s.allset.card ≤ (Finset.Ico (0 : ℤ) fdSetSize).card :=
    Finset.card_le_card fun fd hfd => Finset.mem_Ico.mpr (hfits fd hfd)
  rw [Finset.card_range] at hmany
  rw [Int.card_Ico] at hfew
  omega

theorem Fits.acceptClient {s : Select} (h : Fits s) {connfd : ℤ}
    (hconnfd : 0 ≤ connfd ∧ connfd < fdSetSize) : Fits (acceptClient connfd s) := by
  unfold Select.acceptClient
  simp only
  split
  · exact h
  · intro fd hfd
    rcases Finset.mem_insert.mp hfd with rfl | hmem
    · exact hconnfd
    · exact h fd hmem

theorem Fits.serveClient {s : Select} (h : Fits s) (read : ℕ → ReadResult) (i : ℕ) :
    Fits (serveClient read i s).1 := by
  unfold Select.serveClient
  simp only
  split
  · exact fun fd hfd => h fd (Finset.mem_of_mem_erase hfd)
  · exact h

theorem Fits.scanClients {s : Select} (h : Fits s) (r : Round) (nready : ℤ) :
    Fits (scanClients r nready s).1 :=
  scan_invariant (P := Fits) (fun _ i _ hs => hs.serveClient r.read i) _ _ _ h

theorem Fits.round {s : Select} (h : Fits s) {r : Round}
    (hconnfd : s.listenfd ∈ r.rset → 0 ≤ r.connfd ∧ r.connfd < fdSetSize) :
    Fits (round r s).1 := by
  unfold Select.round
  split
  · exact h
  split
  · next hlisten =>
    have hadmitted := h.acceptClient (hconnfd hlisten)
    simp only
    split
    · exact hadmitted
    · exact hadmitted.scanClients r _
  · exact h.scanClients r _

/-- What is watched in a run fits an `fd_set` if the listening socket does. -/
theorem fits_of_run {listenfd : ℤ} (hlistenfd : 0 ≤ listenfd ∧ listenfd < fdSetSize)
    {h : List (Event Select Round)} {s : Select} (hrun : (server Reports listenfd).Run h s) :
    Fits s := by
  refine hrun.invariant (fun s hs => ?_) fun s r s' _ hstep hfits => ?_
  · obtain rfl : s = start listenfd := hs
    exact fun fd hfd => Finset.mem_singleton.mp hfd ▸ hlistenfd
  · obtain ⟨-, hr, rfl⟩ := hstep
    exact hfits.round fun hlisten => ⟨(hr.accept hlisten).1, (hr.accept hlisten).2.1⟩

/-- **A round of the `select` server serves exactly the ready set.**  For every reachable state
and every report of `select`, the round accepts once if and only if the listening socket is
reported, reads once from each connection that is reported and from nothing else, replies with
the upper-case of exactly the bytes read, and goes back to `select`. -/
theorem round_serves_ready (listenfd : ℤ) (hlistenfd : 0 ≤ listenfd ∧ listenfd < fdSetSize)
    (h : List (Event Select Round)) (s : Select) (hrun : (server Reports listenfd).Run h s)
    (hback : s.exited = none) (r : Round) (hr : Reports s r) (hn : 1 ≤ r.nready) :
    ServesReady s r := by
  have hinv := selectInv_of_reports hrun hback
  have hroom := hinv.not_tableFull (fits_of_run hlistenfd hrun)
  exact hinv.servesReady hr hback (zero_le_one.trans hn) fun hfull => hroom hfull.2

/-! ## Filling the table -/

/-- The first `n` descriptors from `4` on. -/
def descriptors (n : ℕ) : Finset ℤ := (Finset.range n).image fun i : ℕ => (4 + i : ℤ)

theorem mem_descriptors {n : ℕ} {fd : ℤ} : fd ∈ descriptors n ↔ 4 ≤ fd ∧ fd < 4 + n := by
  rw [descriptors, Finset.mem_image]
  constructor
  · rintro ⟨i, hi, rfl⟩
    have := Finset.mem_range.mp hi
    omega
  · rintro ⟨hle, hlt⟩
    exact ⟨(fd - 4).toNat, Finset.mem_range.mpr (by omega), by omega⟩

theorem descriptors_succ (n : ℕ) :
    descriptors (n + 1) = insert (4 + n : ℤ) (descriptors n) := by
  rw [descriptors, Finset.range_add_one, Finset.image_insert]
  rfl

theorem card_descriptors (n : ℕ) : (descriptors n).card = n := by
  rw [descriptors, Finset.card_image_of_injective, Finset.card_range]
  intro i j hij
  simp only at hij
  omega

/-- The state after `n` clients have connected to the server that listens on `3`. -/
def connected (n : ℕ) : Select where
  client i := if i < n then 4 + i else -1
  maxi := n - 1
  maxfd := 3 + n
  allset := insert 3 (descriptors n)
  listenfd := 3
  connections := descriptors n
  exited := none

/-- The round in which one more client connects and nothing else happens. -/
def connecting (n : ℕ) : Round := ⟨1, {3}, 4 + n, fun _ => .eof⟩

theorem connected_client (n : ℕ) :
    Function.update (connected n).client n (4 + n) = (connected (n + 1)).client := by
  funext i
  by_cases hi : i = n
  · rw [hi, Function.update_self]
    exact (if_pos n.lt_succ_self).symm
  · rw [Function.update_of_ne hi]
    simp only [connected]
    split <;> split <;> omega

theorem acceptClient_connected {n : ℕ} (hn : n < fdSetSize) :
    acceptClient (4 + n) (connected n) = connected (n + 1) := by
  have hfirst : firstVacant vacant (connected n).client fdSetSize 0 = n := by
    refine firstVacant_eq hn ?_ fun j hj => ?_
    · simp [connected, vacant]
    · simp only [connected, vacant, if_pos hj]
      omega
  have hpos : ¬ (4 + n : ℤ) < 0 := by omega
  have hmaxi : (connected n).maxi < n := by
    simp only [connected]
    omega
  have hmaxfd : (connected n).maxfd < 4 + n := by
    simp only [connected]
    omega
  rw [acceptClient, hfirst, if_neg hn.ne, if_neg hpos, if_pos hmaxi, if_pos hmaxfd,
    connected_client]
  simp only [connected, descriptors_succ, Finset.insert_comm _ (3 : ℤ)]
  congr 1 <;> push_cast <;> omega

theorem round_connecting {n : ℕ} (hn : n < fdSetSize) :
    round (connecting n) (connected n) = (connected (n + 1), [.accept]) := by
  have hlisten : (connected n).listenfd ∈ (connecting n).rset := Finset.mem_singleton_self 3
  have hn' : ¬ (connecting n).nready < 0 := not_lt.mpr zero_le_one
  rw [round, if_neg hn', if_pos hlisten, ← acceptClient_connected hn]
  exact if_pos (.inr rfl)

/-- The run in which `n` clients connect one after the other. -/
theorem run_connected (env : Select → Round → Prop) {n : ℕ} (hn : n ≤ fdSetSize)
    (henv : ∀ m < n, env (connected m) (connecting m)) :
    ∃ h, (server env 3).Run h (connected n) ∧ ∀ e ∈ h, ∃ m < n, e.pre = connected m := by
  induction n with
  | zero =>
    refine ⟨[], .start ?_, fun e he => absurd he List.not_mem_nil⟩
    simp [server, start, connected, descriptors]
  | succ n ih =>
    obtain ⟨h, hrun, hmem⟩ := ih (Nat.le_of_succ_le hn) fun m hm => henv m (Nat.lt_succ_of_lt hm)
    have hstep : (server env 3).step (connected n) (connecting n) (connected (n + 1)) :=
      ⟨rfl, henv n (Nat.lt_succ_self n), congrArg Prod.fst (round_connecting hn)⟩
    refine ⟨_, hrun.step hstep, fun e he => ?_⟩
    rcases List.mem_append.mp he with hold | hlast
    · obtain ⟨m, hm, heq⟩ := hmem e hold
      exact ⟨m, Nat.lt_succ_of_lt hm, heq⟩
    · rw [List.mem_singleton.mp hlast]
      exact ⟨n, Nat.lt_succ_self n, rfl⟩

theorem connecting_reported (n : ℕ) : 0 ≤ (connecting n).nready →
    (connecting n).rset ⊆ (connected n).allset ∧
      (connecting n).nready = (connecting n).rset.card :=
  fun _ => ⟨Finset.singleton_subset_iff.mpr (Finset.mem_insert_self 3 _), rfl⟩

theorem reports_connecting {n : ℕ} (hn : 4 + n < fdSetSize) :
    Reports (connected n) (connecting n) where
  select := connecting_reported n
  accept _ := by
    have hnew : (4 + n : ℤ) ∉ descriptors n := fun hmem => by
      have := (mem_descriptors.mp hmem).2
      omega
    exact ⟨show (0 : ℤ) ≤ 4 + n by omega, show (4 + n : ℤ) < fdSetSize by omega,
      show (4 + n : ℤ) ≠ 3 by omega, hnew⟩
  read _ := le_rfl
  valid _ := trivial

/-- One client sends a byte while a second one connects. -/
theorem round_serves_ready_pair :
    ∃ h r, (server Reports 3).Run h (connected 1) ∧ r.nready = 2 ∧ ServesReady (connected 1) r := by
  obtain ⟨h, hrun, -⟩ := run_connected Reports (n := 1) (by decide)
    fun m hm => reports_connecting (by rw [Nat.lt_one_iff.mp hm]; decide)
  let r : Round := ⟨2, {3, 4}, 5, fun _ => .data [97]⟩
  have hr : Reports (connected 1) r :=
    ⟨⟨by decide, by decide, fun _ => Int.natCast_nonneg _⟩, fun _ => ⟨by decide, by decide⟩⟩
  exact ⟨h, r, hrun, rfl, round_serves_ready 3 (by decide) h _ hrun rfl r hr one_le_two⟩

end Select

end LinuxExercise.Servers
