import TRex.StacksInvariant

/-!
# Columns with a forgotten past

`Trims obsolete now cur full`: the column `cur` is what is left of `full` after packets were dropped
from its front, and every dropped packet is obsolete. The relation survives everything that happens
to a stack: a newer packet arrives in both, packets are consumed from both, and expiry drops more
packets of `cur` alone. A search of a window that no obsolete packet lies in cannot tell the two
apart (`Trims.between_eq`).

`Obsolete now win ref` is the reason for which expiry drops packets: they are too old for the window
of every packet that `ref` holds and of every packet that is still to come.
-/

namespace TRex

/-! ## How the three changes act on the packets -/

namespace Column

variable {c : Column}

theorem mem_add {p q : PubPktPtr} (mem : q ∈ (c.add p).received) : q ∈ c.received ∨ q = p := by
  rw [Column.add] at mem
  split at mem
  · exact (List.mem_append.mp mem).imp_right List.mem_singleton.mp
  · rcases List.mem_append.mp mem with front | back
    · exact .inl (List.mem_of_mem_take front)
    · exact (List.mem_cons.mp back).symm.imp_left List.mem_of_mem_drop

/-- A packet that is not older than any other goes to the end. -/
theorem Inv.add_newest (inv : c.Inv) {p : PubPktPtr}
    (newest : ∀ q ∈ c.received, q.getTimeStamp ≤ p.getTimeStamp) :
    c.add p = ⟨c.size + 1, c.received ++ [p]⟩ := by
  obtain ⟨k, le, eq, -, young⟩ := inv.add_received p
  have rest : c.received.drop k = [] := by
    apply List.eq_nil_iff_forall_not_mem.mpr
    intro q mem
    have after := young q mem
    have before := newest q (List.mem_of_mem_drop mem)
    omega
  have all : c.received.take k = c.received := by
    conv_rhs => rw [← List.take_append_drop k c.received, rest, List.append_nil]
  rw [eq, rest, all]

theorem mem_removeOld {minTS : Nat} {q : PubPktPtr} (mem : q ∈ (c.removeOld minTS).received) :
    q ∈ c.received := by
  rw [Column.removeOld] at mem
  split at mem
  · exact mem
  simp only at mem
  split at mem
  · exact mem
  · exact List.mem_of_mem_drop mem

theorem mem_erase {addrs : List Nat} {q : PubPktPtr} (mem : q ∈ (c.erase addrs).received) :
    q ∈ c.received :=
  List.mem_of_mem_filter mem

/-! ### What expiry leaves -/

section Stays

variable {minTS k : Nat} {e : PubPktPtr}

/-- What expiry at `minTS` leaves: the packets after it, and the newest one if it lies on it. -/
def Stays (column : List PubPktPtr) (minTS : Nat) (e : PubPktPtr) : Prop :=
  minTS < e.getTimeStamp ∨ (e.getTimeStamp = minTS ∧ column.getLast? = some e)

theorem Inv.removeOld_of_answer (inv : c.Inv) (le : k ≤ c.received.length)
    (answer : deleteInvalidElements c.received c.size minTS = (c.received.length - k : Nat)) :
    (c.removeOld minTS).received = c.received.drop k := by
  have size := inv.size
  unfold Column.removeOld
  split
  · rw [List.eq_nil_of_length_eq_zero (show c.received.length = 0 by omega), List.drop_nil]
  · simp only [answer]
    split
    · rw [show k = 0 by omega, List.drop_zero]
    · simp only [size, show ((c.received.length : Int) - (c.received.length - k : Nat)).toNat = k by
        omega]

theorem Inv.mem_removeOld_iff (inv : c.Inv) :
    e ∈ (c.removeOld minTS).received ↔ e ∈ c.received ∧ Stays c.received minTS e := by
  have size := inv.size
  rcases Nat.eq_zero_or_pos c.received.length with none | pos
  · rw [inv.removeOld_of_answer (k := 0) (Nat.zero_le _) (by
      simp [deleteInvalidElements, size, none]), List.eq_nil_of_length_eq_zero none]
    simp
  have last := List.getLast?_eq_some_getLast (List.ne_nil_of_length_pos pos)
  have newestTime := timeAt_of_getLast? last
  generalize c.received.getLast _ = newest at last newestTime
  have notEmpty : c.size ≠ 0 := by omega
  by_cases onIt : newest.getTimeStamp = minTS
  · have answer : deleteInvalidElements c.received c.size minTS =
        (c.received.length - (c.received.length - 1) : Nat) := by
      rw [deleteInvalidElements, if_neg notEmpty, size, Int.toNat_natCast, newestTime, if_pos onIt]
      omega
    have alone : c.received.drop (c.received.length - 1) = [newest] := by
      rw [List.getLast?_eq_getElem?] at last
      obtain ⟨lt, isNewest⟩ := List.getElem?_eq_some_iff.mp last
      rw [List.drop_eq_getElem_cons lt, isNewest, List.drop_eq_nil_of_le (by omega)]
    rw [inv.removeOld_of_answer (by omega) answer, alone, List.mem_singleton]
    constructor
    · rintro rfl
      exact ⟨List.mem_of_getLast? last, .inr ⟨onIt, last⟩⟩
    · rintro ⟨mem, after | ⟨-, newest'⟩⟩
      · have upTo := le_timeAt_last inv.sorted mem
        omega
      · exact Option.some.inj (newest'.symm.trans last)
  · have stays_iff : ∀ {e}, Stays c.received minTS e ↔ minTS < e.getTimeStamp := by
      intro e
      refine ⟨fun stays => stays.elim id fun ⟨on, newest'⟩ => ?_, .inl⟩
      rw [last] at newest'
      cases newest'
      exact absurd on onIt
    rw [stays_iff]
    have apart : ∀ newest', c.received.getLast? = some newest' → newest'.getTimeStamp ≠ minTS := by
      intro newest' last' on
      cases last.symm.trans last'
      exact onIt on
    obtain ⟨k, le, answer, left⟩ := deleteInvalidElements_eq_of_ne inv.sorted minTS apart
    rw [inv.removeOld_of_answer le (size ▸ answer), left, List.mem_filter, decide_eq_true_eq]

end Stays

end Column

/-- The packet just added to a stack, or one that was there before. -/
theorem Stacks.mem_addToStack {st : Stacks} {p q : PubPktPtr} {i j : Nat}
    (mem : q ∈ ((st.addToStack p j).states i).received) :
    q ∈ (st.states i).received ∨ (j = i ∧ q = p) := by
  rcases eq_or_ne i j with rfl | ne
  · simp only [Stacks.addToStack, Function.update_self] at mem
    rcases Column.mem_add mem with old | new
    · exact .inl old
    · exact .inr ⟨rfl, new⟩
  · simp only [Stacks.addToStack, Function.update_of_ne ne] at mem
    exact .inl mem

/-! ## Obsolete packets -/

/-- No window of length `win` before a packet of `ref`, or before a packet from time `now` on,
contains the packet. -/
structure Obsolete (now win : Nat) (ref : Column) (e : PubPktPtr) : Prop where
  future : e.getTimeStamp ≤ now - win
  current : ∀ q ∈ ref.received, e.getTimeStamp ≤ q.getTimeStamp - win

/-- Packets stay obsolete when time passes, when `ref` loses packets and when new ones arrive. -/
theorem Obsolete.mono {now now' win : Nat} {ref ref' : Column} {e : PubPktPtr}
    (obsolete : Obsolete now win ref e) (le : now ≤ now')
    (origin : ∀ q ∈ ref'.received, q ∈ ref.received ∨ now ≤ q.getTimeStamp) :
    Obsolete now' win ref' e := by
  have future := obsolete.future
  refine ⟨by omega, fun q mem => ?_⟩
  rcases origin q mem with old | new
  · exact obsolete.current q old
  · omega

/-- What expiry drops is obsolete: the cutoff is the window before the oldest packet of `ref`. -/
theorem obsolete_of_le_cutoff {now win : Nat} {ref : Column} {e : PubPktPtr} (inv : ref.Inv)
    (nonempty : ref.size ≠ 0) (past : ∀ q ∈ ref.received, q.getTimeStamp ≤ now)
    (old : e.getTimeStamp ≤ timeAt ref.received 0 - win) : Obsolete now win ref e := by
  have pos : 0 < ref.received.length := by
    have size := inv.size
    omega
  have first : timeAt ref.received 0 ≤ now := by
    rw [timeAt_eq pos]
    exact past _ (List.getElem_mem pos)
  refine ⟨by omega, fun q mem => ?_⟩
  have le := timeAt_zero_le inv.sorted mem
  omega

/-! ## Trimmed columns -/

structure Trims (obsolete : PubPktPtr → Prop) (now : Nat) (cur full : Column) : Prop where
  invCur : cur.Inv
  invFull : full.Inv
  past : ∀ q ∈ full.received, q.getTimeStamp ≤ now
  split : ∃ old, full.received = old ++ cur.received ∧ ∀ e ∈ old, obsolete e

namespace Trims

variable {obsolete obsolete' : PubPktPtr → Prop} {now now' : Nat} {cur full : Column}

theorem refl (inv : cur.Inv) (past : ∀ q ∈ cur.received, q.getTimeStamp ≤ now) :
    Trims obsolete now cur cur :=
  ⟨inv, inv, past, [], rfl, by simp⟩

theorem mem_full (trims : Trims obsolete now cur full) {q : PubPktPtr} (mem : q ∈ cur.received) :
    q ∈ full.received := by
  obtain ⟨old, split, -⟩ := trims.split
  rw [split]
  exact List.mem_append_right _ mem

theorem past_cur (trims : Trims obsolete now cur full) :
    ∀ q ∈ cur.received, q.getTimeStamp ≤ now :=
  fun q mem => trims.past q (trims.mem_full mem)

theorem mono (trims : Trims obsolete now cur full) (le : now ≤ now')
    (imp : ∀ e, obsolete e → obsolete' e) : Trims obsolete' now' cur full := by
  obtain ⟨old, split, allOld⟩ := trims.split
  exact ⟨trims.invCur, trims.invFull, fun q mem => (trims.past q mem).trans le, old, split,
    fun e mem => imp e (allOld e mem)⟩

/-- A packet from now on is appended to both columns. -/
theorem add (trims : Trims obsolete now cur full) {p : PubPktPtr} (le : now ≤ p.getTimeStamp) :
    Trims obsolete p.getTimeStamp (cur.add p) (full.add p) := by
  obtain ⟨old, split, allOld⟩ := trims.split
  refine ⟨trims.invCur.add p, trims.invFull.add p, ?_, old, ?_, allOld⟩
  · intro q mem
    rcases Column.mem_add mem with before | rfl
    · exact (trims.past q before).trans le
    · exact le_rfl
  · rw [trims.invCur.add_newest fun q mem => (trims.past_cur q mem).trans le,
      trims.invFull.add_newest fun q mem => (trims.past q mem).trans le, split, List.append_assoc]

/-- Expiry may drop obsolete packets from the trimmed column alone. -/
theorem removeOld (trims : Trims obsolete now cur full) {minTS : Nat}
    (justified : ∀ e ∈ cur.received, e.getTimeStamp ≤ minTS → obsolete e) :
    Trims obsolete now (cur.removeOld minTS) full := by
  obtain ⟨old, split, allOld⟩ := trims.split
  obtain ⟨k, -, eq, dropped⟩ := trims.invCur.removeOld_received minTS
  refine ⟨trims.invCur.removeOld minTS, trims.invFull, trims.past, old ++ cur.received.take k, ?_,
    ?_⟩
  · rw [eq, List.append_assoc, List.take_append_drop, split]
  · intro e mem
    rcases List.mem_append.mp mem with before | now
    · exact allOld e before
    · exact justified e (List.mem_of_mem_take now) (dropped e now)

/-- Packets are consumed from both columns. -/
theorem erase (trims : Trims obsolete now cur full) (addrs : List Nat) :
    Trims obsolete now (cur.erase addrs) (full.erase addrs) := by
  obtain ⟨old, split, allOld⟩ := trims.split
  refine ⟨trims.invCur.erase addrs, trims.invFull.erase addrs,
    fun q mem => trims.past q (Column.mem_erase mem),
    old.filter fun p => !addrs.contains p.addr, ?_,
    fun e mem => allOld e (List.mem_of_mem_filter mem)⟩
  simp only [Column.erase, split, List.filter_append]

/-- A window that starts after every obsolete packet holds the same packets of both columns. -/
theorem between_eq (trims : Trims obsolete now cur full) (lo hi : Nat)
    (before : ∀ e, obsolete e → e.getTimeStamp ≤ lo) :
    between lo hi full.received = between lo hi cur.received := by
  obtain ⟨old, split, allOld⟩ := trims.split
  have none : between lo hi old = [] := between_eq_nil_of_le fun e mem => before e (allOld e mem)
  unfold between at none ⊢
  rw [split, List.filter_append, none, List.nil_append]

end Trims

end TRex
