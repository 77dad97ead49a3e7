import Mathlib.Data.List.Basic
import Mathlib.Data.List.Sublists
import Mathlib.Tactic.Common

/-!
# Jopp.Lib.Deliver

Delivering a list through a device that takes part of what it is offered. The list lies in blocks
of one size, and a write offers what is left of the block the position is in. The device accepts
some of it, asks to be tried again, or fails. A failed write counts as minus one item: the position
goes back by one, and before the start of a block there is nothing to go back to.

* `deliver`: the run, by the answers of the device.
* `deliver_append`: the first block of a list, and then the rest of it.
* `deliver_inOrder`: without a failed write what is accepted is a prefix of the list, and all of it
  exactly if the run ends as `sent`.
* `Resent`: what is accepted with failed writes. Each of them has the items sent again from the one
  before the position on, so that nothing is lost (`Resent.sublist`), and there is one item more for
  each (`Resent.length`).
* `deliver_met`: a run ends as `sent` by the answers it has met, and waits at each of them, at the
  position that the answers before it lead to.
* `deliver_whole`: a device that goes on accepting is sent the list.
-/

namespace Deliver

variable {β : Type*}

inductive Answer where
  | accepted (n : Nat)
  | again
  | failed
deriving DecidableEq

inductive Ending where
  | sent
  | refused
  | invalid
  | waiting
deriving DecidableEq

/-- What the device has accepted when the run ends, how it ends, and the answers left. -/
structure Delivery (β : Type*) where
  accepted : List β
  ending : Ending
  unread : List Answer

def Delivery.prepend (w : List β) (d : Delivery β) : Delivery β :=
  { d with accepted := w ++ d.accepted }

/-- Where all has been sent, go on with the answers left. -/
def Delivery.andThen (d : Delivery β) (next : List Answer → Delivery β) : Delivery β :=
  if d.ending = .sent then (next d.unread).prepend d.accepted else d

def offered (size : Nat) (l : List β) (pos : Nat) : Nat :=
  min (size - pos % size) (l.length - pos)

def deliver (size : Nat) (l : List β) : List Answer → Nat → Delivery β
  | [], pos => ⟨[], if l.length ≤ pos then .sent else .waiting, []⟩
  | answer :: answers, pos =>
    if l.length ≤ pos then ⟨[], .sent, answer :: answers⟩
    else
      match answer with
      | .again => deliver size l answers pos
      | .failed =>
        if pos % size = 0 then ⟨[], .invalid, answers⟩ else deliver size l answers (pos - 1)
      | .accepted n =>
        let m := min n (offered size l pos)
        if m = 0 then ⟨[], .refused, answers⟩
        else (deliver size l answers (pos + m)).prepend ((l.drop pos).take m)

/-- The list from `pos` on, with `k` times going back: when `n` items more have been sent, the one
before the position, and what follows it, is sent again. -/
inductive Resent (l : List β) : Nat → Nat → List β → Prop where
  | rest (pos : Nat) : Resent l pos 0 (l.drop pos)
  | back {pos k n : Nat} {out : List β} (hpos : 0 < pos + n) (hn : pos + n ≤ l.length)
      (h : Resent l (pos + n - 1) k out) : Resent l pos (k + 1) ((l.drop pos).take n ++ out)

variable {size pos : Nat} {l block post : List β} {answers : List Answer}

theorem offered_le : offered size l pos ≤ l.length - pos := Nat.min_le_right ..

theorem offered_pos (hsize : 0 < size) (h : pos < l.length) : 0 < offered size l pos := by
  have hlt := Nat.mod_lt pos hsize
  unfold offered
  omega

@[simp] theorem deliver_end (h : l.length ≤ pos) :
    deliver size l answers pos = ⟨[], .sent, answers⟩ := by
  cases answers <;> simp [deliver, h]

theorem take_drop_append (l : List β) (pos m : Nat) :
    (l.drop pos).take m ++ l.drop (pos + m) = l.drop pos := by
  rw [← List.drop_drop, List.take_append_drop]

@[simp] theorem Delivery.prepend_andThen (w : List β) (d : Delivery β)
    (next : List Answer → Delivery β) :
    (d.prepend w).andThen next = (d.andThen next).prepend w := by
  by_cases h : d.ending = .sent
  · simp [Delivery.andThen, Delivery.prepend, h]
  · simp [Delivery.andThen, Delivery.prepend, h]

/-! ## Blocks -/

/-- Behind whole blocks the run is that of the rest alone. -/
theorem deliver_shift (hblock : block.length % size = 0) (answers : List Answer) (pos : Nat) :
    deliver size (block ++ post) answers (block.length + pos) = deliver size post answers pos := by
  have hmod : ∀ pos, (block.length + pos) % size = pos % size := fun pos => by
    rw [Nat.add_mod, hblock, Nat.zero_add, Nat.mod_mod]
  have hoffered : ∀ pos,
      offered size (block ++ post) (block.length + pos) = offered size post pos := fun pos => by
    unfold offered
    rw [hmod, List.length_append]
    omega
  have hend : ∀ pos,
      (block ++ post).length ≤ block.length + pos ↔ post.length ≤ pos := fun pos => by
    rw [List.length_append]
    omega
  induction answers generalizing pos with
  | nil => simp only [deliver, hend]
  | cons answer answers ih =>
    cases answer with
    | again => simp only [deliver, hend, ih]
    | failed =>
      simp only [deliver, hend, hmod]
      by_cases hpos : pos % size = 0
      · simp only [hpos, if_true]
      · have hback : block.length + pos - 1 = block.length + (pos - 1) := by
          have : pos ≠ 0 := fun h => hpos (h ▸ Nat.zero_mod size)
          omega
        simp only [hpos, if_false, hback, ih]
    | accepted n =>
      simp only [deliver, hend, hoffered, Nat.add_assoc, ih, List.drop_length_add_append]

theorem deliver_append (hblock : block.length = size) (answers : List Answer) :
    deliver size (block ++ post) answers 0 =
      (deliver size block answers 0).andThen fun unread => deliver size post unread 0 := by
  suffices hall : ∀ pos ≤ size, deliver size (block ++ post) answers pos =
      (deliver size block answers pos).andThen fun unread => deliver size post unread 0 from
    hall 0 (Nat.zero_le _)
  have hdone : ∀ answers, deliver size (block ++ post) answers size =
      (deliver size block answers size).andThen fun unread => deliver size post unread 0 := by
    intro answers
    have hshift : deliver size (block ++ post) answers (block.length + 0) =
        deliver size post answers 0 := deliver_shift (hblock ▸ Nat.mod_self size) answers 0
    rw [hblock, Nat.add_zero] at hshift
    rw [deliver_end (Nat.le_of_eq hblock), hshift]
    rfl
  induction answers with
  | nil =>
    intro pos hpos
    by_cases hsize : pos = size
    · exact hsize ▸ hdone []
    · have hlong : ¬ block.length ≤ pos := by omega
      have hlong' : ¬ (block ++ post).length ≤ pos := by
        rw [List.length_append]
        omega
      simp only [deliver, hlong, hlong', if_false]
      rfl
  | cons answer answers ih =>
    intro pos hpos
    by_cases hsize : pos = size
    · exact hsize ▸ hdone _
    · have hlong : ¬ block.length ≤ pos := by omega
      have hlong' : ¬ (block ++ post).length ≤ pos := by
        rw [List.length_append]
        omega
      have hmod : pos % size = pos := Nat.mod_eq_of_lt (by omega)
      have hoffered : offered size (block ++ post) pos = offered size block pos := by
        unfold offered
        rw [hmod, List.length_append]
        omega
      cases answer with
      | again =>
        simp only [deliver, hlong, hlong', if_false]
        exact ih pos hpos
      | failed =>
        simp only [deliver, hlong, hlong', if_false, hmod]
        by_cases hzero : pos = 0
        · simp [hzero, Delivery.andThen]
        · simp only [hzero, if_false]
          exact ih (pos - 1) (by omega)
      | accepted n =>
        simp only [deliver, hlong, hlong', if_false, hoffered]
        by_cases hm : min n (offered size block pos) = 0
        · simp [hm, Delivery.andThen]
        · have hle : offered size block pos ≤ block.length - pos := offered_le
          have hdrop : ((block ++ post).drop pos).take (min n (offered size block pos)) =
              (block.drop pos).take (min n (offered size block pos)) := by
            rw [List.drop_append_of_le_length (by omega), List.take_append_of_le_length]
            rw [List.length_drop]
            omega
          simp only [hm, if_false, hdrop, Delivery.prepend_andThen]
          rw [ih _ (by omega)]

/-! ## What is accepted -/

/-- Without a failed write what is accepted comes in order, and nothing twice. -/
theorem deliver_inOrder (hfailed : .failed ∉ answers) :
    (deliver size l answers pos).accepted <+: l.drop pos ∧
      ((deliver size l answers pos).ending = .sent ↔
        (deliver size l answers pos).accepted = l.drop pos) ∧
      (deliver size l answers pos).ending ≠ .invalid := by
  fun_induction deliver size l answers pos with
  | case1 pos => by_cases hend : l.length ≤ pos <;> simp [hend, eq_comm]
  | case2 answer answers pos hend => simp [hend]
  | case3 answers pos hend ih => exact ih fun h => hfailed (List.mem_cons_of_mem _ h)
  | case4 | case5 => exact absurd (List.mem_cons_self ..) hfailed
  | case6 answers pos hend => simp [hend, eq_comm]
  | case7 answers pos hend n m hm ih =>
    obtain ⟨hpre, hsent, hvalid⟩ := ih fun h => hfailed (List.mem_cons_of_mem _ h)
    have hsplit := take_drop_append l pos m
    refine ⟨?_, hsent.trans ?_, hvalid⟩
    · have hpre' := (List.prefix_append_right_inj ((l.drop pos).take m)).mpr hpre
      rwa [hsplit] at hpre'
    · have hcancel := List.append_cancel_left_eq ((l.drop pos).take m)
        (deliver size l answers (pos + m)).accepted (l.drop (pos + m))
      rw [hsplit] at hcancel
      exact iff_of_eq hcancel.symm

theorem accepted_of_sent (hfailed : .failed ∉ answers)
    (h : (deliver size l answers 0).ending = .sent) : (deliver size l answers 0).accepted = l :=
  ((deliver_inOrder hfailed).2.1.mp h).trans List.drop_zero

/-! ## What is sent again -/

section

variable {k m : Nat} {out : List β}

theorem Resent.nil (hend : l.length ≤ pos) : Resent l pos 0 [] := by
  have hrest := Resent.rest (l := l) pos
  rwa [List.drop_eq_nil_of_le hend] at hrest

theorem Resent.send (h : Resent l (pos + m) k out) :
    Resent l pos k ((l.drop pos).take m ++ out) := by
  cases h with
  | rest =>
    rw [take_drop_append]
    exact .rest pos
  | @back _ k n out hpos hn h =>
    have hsplit : (l.drop pos).take m ++ ((l.drop (pos + m)).take n ++ out) =
        (l.drop pos).take (m + n) ++ out := by
      rw [List.take_add, List.drop_drop, List.append_assoc]
    rw [Nat.add_assoc] at hpos hn h
    rw [hsplit]
    exact .back hpos hn h

theorem Resent.length (h : Resent l pos k out) (hpos : pos ≤ l.length) :
    out.length + pos = l.length + k := by
  induction h with
  | rest pos =>
    rw [List.length_drop]
    omega
  | back hpos' hn h ih =>
    have hrest := ih (by omega)
    rw [List.length_append, List.length_take, List.length_drop]
    omega

theorem Resent.sublist (h : Resent l pos k out) : (l.drop pos).Sublist out := by
  induction h with
  | rest => exact List.Sublist.refl _
  | @back pos k n out hpos hn h ih =>
    have hback : pos + n = pos + n - 1 + 1 := by omega
    have hdrop : (l.drop (pos + n)).Sublist (l.drop (pos + n - 1)) := by
      rw [hback, ← List.drop_drop]
      exact List.drop_sublist ..
    have hsub := List.Sublist.append_left (hdrop.trans ih) ((l.drop pos).take n)
    rwa [take_drop_append] at hsub

end

/-- The run from `pos` on ends as `sent` by the answers in `met`, and by no fewer of them, with
`out` accepted. When it has met a part of them, it stands as far behind `pos` as `part` of `out` is
long, less the steps back, and accepts the `rest` from there on. -/
structure Meets (size : Nat) (l : List β) (pos : Nat) (met : List Answer) (out : List β) :
    Prop where
  sent : deliver size l met pos = ⟨out, .sent, []⟩
  resent : Resent l pos (met.count .failed) out
  waiting : ∀ w v, met = w ++ v → v ≠ [] → ∃ part rest p, out = part ++ rest ∧
    deliver size l w pos = ⟨part, .waiting, []⟩ ∧ p + w.count .failed = pos + part.length ∧
    Resent l p (v.count .failed) rest

theorem meets_nil (hend : l.length ≤ pos) : Meets size l pos [] [] where
  sent := deliver_end hend
  resent := .nil hend
  waiting _ _ heq hne := absurd (List.append_eq_nil_iff.mp heq.symm).2 hne

theorem Meets.cons {answer : Answer} {met : List Answer} {pos' : Nat} {sent out : List β}
    (hend : ¬ l.length ≤ pos)
    (hstep : ∀ answers, deliver size l (answer :: answers) pos =
      (deliver size l answers pos').prepend sent)
    (hpos : pos' + [answer].count .failed = pos + sent.length)
    (hresent : Resent l pos ((answer :: met).count .failed) (sent ++ out))
    (h : Meets size l pos' met out) : Meets size l pos (answer :: met) (sent ++ out) where
  sent := by
    rw [hstep, h.sent]
    rfl
  resent := hresent
  waiting := by
    intro w v heq hne
    cases w with
    | nil =>
      obtain rfl : answer :: met = v := heq
      exact ⟨[], _, pos, rfl, by simp [deliver, hend], rfl, hresent⟩
    | cons answer' w =>
      obtain ⟨rfl, heq'⟩ := List.cons.inj heq
      obtain ⟨part, rest, p, rfl, hwaits, hp, hrest⟩ := h.waiting w v heq' hne
      refine ⟨sent ++ part, rest, p, (List.append_assoc ..).symm, ?_, ?_, hrest⟩
      · rw [hstep, hwaits]
        rfl
      · have hcount : ([answer] ++ w).count .failed = [answer].count .failed + w.count .failed :=
          List.count_append
        rw [List.singleton_append] at hcount
        rw [hcount, List.length_append]
        omega

/-- The answers a run has met that ends as `sent`. -/
theorem deliver_met (h : (deliver size l answers pos).ending = .sent) :
    ∃ met, answers = met ++ (deliver size l answers pos).unread ∧
      Meets size l pos met (deliver size l answers pos).accepted := by
  fun_induction deliver size l answers pos with
  | case1 pos =>
    by_cases hend : l.length ≤ pos
    · exact ⟨[], rfl, meets_nil hend⟩
    · simp [hend] at h
  | case2 answer answers pos hend => exact ⟨[], rfl, meets_nil hend⟩
  | case3 answers pos hend ih =>
    obtain ⟨met, hsplit, hmeets⟩ := ih h
    have hne : Answer.again ≠ .failed := nofun
    have hstep : ∀ answers, deliver size l (.again :: answers) pos =
        (deliver size l answers pos).prepend [] := fun _ => by
      simp only [deliver, hend, if_false]
      rfl
    refine ⟨.again :: met, congrArg _ hsplit, hmeets.cons hend hstep rfl ?_⟩
    rw [List.count_cons_of_ne hne]
    exact hmeets.resent
  | case4 | case6 => cases h
  | case5 answers pos hend hmod ih =>
    obtain ⟨met, hsplit, hmeets⟩ := ih h
    have hpos : 0 < pos := Nat.pos_of_ne_zero fun hzero => hmod (hzero ▸ Nat.zero_mod size)
    have hstep : ∀ answers, deliver size l (.failed :: answers) pos =
        (deliver size l answers (pos - 1)).prepend [] := fun _ => by
      simp only [deliver, hend, hmod, if_false]
      rfl
    refine ⟨.failed :: met, congrArg _ hsplit,
      hmeets.cons hend hstep (Nat.sub_add_cancel hpos) ?_⟩
    rw [List.count_cons_self]
    exact Resent.back (n := 0) hpos (by omega) hmeets.resent
  | case7 answers pos hend n m hm ih =>
    obtain ⟨met, hsplit, hmeets⟩ := ih h
    have hne : Answer.accepted n ≠ .failed := nofun
    have hstep : ∀ answers, deliver size l (.accepted n :: answers) pos =
        (deliver size l answers (pos + m)).prepend ((l.drop pos).take m) := fun _ => by
      simp only [deliver, hend, if_false]
      exact if_neg hm
    have hle : offered size l pos ≤ l.length - pos := offered_le
    have hlen : ((l.drop pos).take m).length = m := by
      rw [List.length_take, List.length_drop]
      omega
    refine ⟨.accepted n :: met, congrArg _ hsplit, hmeets.cons hend hstep ?_ ?_⟩
    · rw [hlen, List.count_cons_of_ne hne]
      rfl
    · rw [List.count_cons_of_ne hne]
      exact hmeets.resent.send

/-! ## How it ends -/

def Answer.accepts : Answer → Bool
  | .accepted n => n ≠ 0
  | _ => false

/-- A run that waits for the device has been accepted less than there is, and what it went back. -/
theorem deliver_waiting (h : (deliver size l answers pos).ending = .waiting) :
    pos + answers.countP Answer.accepts < l.length + answers.count .failed := by
  fun_induction deliver size l answers pos with
  | case1 pos =>
    by_cases hend : l.length ≤ pos
    · simp [hend] at h
    · simpa using hend
  | case2 | case4 | case6 => cases h
  | case3 answers pos hend ih =>
    have hne : Answer.again ≠ .failed := nofun
    rw [List.count_cons_of_ne hne, List.countP_cons_of_neg Bool.false_ne_true]
    exact ih h
  | case5 answers pos hend hmod ih =>
    have hrest := ih h
    rw [List.count_cons_self, List.countP_cons_of_neg Bool.false_ne_true]
    omega
  | case7 answers pos hend n m hm ih =>
    have hrest := ih h
    have hne : Answer.accepted n ≠ .failed := nofun
    rw [List.count_cons_of_ne hne, List.countP_cons]
    split <;> omega

theorem deliver_refused (hsize : 0 < size) (h : (deliver size l answers pos).ending = .refused) :
    .accepted 0 ∈ answers := by
  fun_induction deliver size l answers pos with
  | case1 pos => by_cases hend : l.length ≤ pos <;> simp [hend] at h
  | case2 | case4 => cases h
  | case3 answers pos hend ih => exact List.mem_cons_of_mem _ (ih h)
  | case5 answers pos hend hmod ih => exact List.mem_cons_of_mem _ (ih h)
  | case6 answers pos hend n m hm =>
    have hpos := offered_pos hsize (Nat.not_le.mp hend)
    obtain rfl : n = 0 := by omega
    exact List.mem_cons_self ..
  | case7 answers pos hend n m hm ih => exact List.mem_cons_of_mem _ (ih h)

theorem deliver_sent (hsize : 0 < size) (hfailed : .failed ∉ answers)
    (hzero : .accepted 0 ∉ answers) (henough : l.length ≤ pos + answers.countP Answer.accepts) :
    (deliver size l answers pos).ending = .sent := by
  cases hend : (deliver size l answers pos).ending with
  | sent => rfl
  | refused => exact absurd (deliver_refused hsize hend) hzero
  | invalid => exact absurd hend (deliver_inOrder hfailed).2.2
  | waiting =>
    have hless := deliver_waiting hend
    rw [List.count_eq_zero_of_not_mem hfailed] at hless
    omega

theorem deliver_whole (hsize : 0 < size) (hfailed : .failed ∉ answers)
    (hzero : .accepted 0 ∉ answers) (henough : l.length ≤ answers.countP Answer.accepts) :
    (deliver size l answers 0).ending = .sent ∧ (deliver size l answers 0).accepted = l := by
  have hsent : (deliver size l answers 0).ending = .sent :=
    deliver_sent hsize hfailed hzero (by omega)
  exact ⟨hsent, accepted_of_sent hfailed hsent⟩

/-- A device that takes item after item is sent every list it has the answers for. -/
theorem exists_answers (β : Type*) {size : Nat} (hsize : 0 < size) (n : Nat) :
    ∃ answers, ∀ l : List β, l.length ≤ n →
      (deliver size l answers 0).ending = .sent ∧ (deliver size l answers 0).accepted = l := by
  refine ⟨List.replicate n (.accepted 1), fun l hl => deliver_whole hsize ?_ ?_ ?_⟩
  · intro h
    cases List.eq_of_mem_replicate h
  · intro h
    cases List.eq_of_mem_replicate h
  · have hcount : (List.replicate n (Answer.accepted 1)).countP Answer.accepts = n := by
      rw [List.countP_replicate]
      rfl
    omega

end Deliver
