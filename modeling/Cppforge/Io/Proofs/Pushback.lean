import Cppforge.Io.Proofs.ExactReads

namespace Cppforge.Io
open Run
open BufferedInputStream (deliver deliver_left deliver_zero deliver_add)

/-- A stream as a list: what was pushed back, in front of what is left below. -/
structure Pushed where
  back : List UInt8
  below : List UInt8

namespace Pushed
variable {m : Pushed} {n : Nat}

def all (m : Pushed) : List UInt8 := m.back ++ m.below

def pass (m : Pushed) (n : Nat) : Pushed := ⟨m.back.drop n, m.below.drop (n - m.back.length)⟩

def push (m : Pushed) (xs : List UInt8) : Pushed := ⟨xs ++ m.back, m.below⟩

section Cells
variable {cells cells' xs : List UInt8} {pos top k : Nat}

/-- What was pushed back stands in cells from a position on: the position moves over it. -/
theorem pass_front (hback : cells.drop pos = m.back) (hroom : pos + m.back.length = top)
    (hk : k ≤ m.back.length) :
    cells.drop (pos + k) = (m.pass k).back ∧ (m.pass k).below = m.below ∧
      pos + k + (m.pass k).back.length = top := by
  refine ⟨?_, ?_, ?_⟩
  · simp only [pass, ← hback, List.drop_drop]
  · simp only [pass, Nat.sub_eq_zero_of_le hk, List.drop_zero]
  · simp only [pass, List.length_drop]
    omega

/-- The position moves to the end. -/
theorem pass_through (hcells : cells.length ≤ top) (hroom : pos + m.back.length = top)
    (hk : m.back.length ≤ k) :
    cells.drop (pos + m.back.length) = (m.pass k).back ∧
      pos + m.back.length + (m.pass k).back.length = top := by
  have hnone : (m.pass k).back = [] := List.drop_eq_nil_of_le hk
  rw [hnone, hroom]
  exact ⟨List.drop_of_length_le hcells, rfl⟩

/-- The position moves back over new cells. -/
theorem push_front (hback : cells.drop pos = m.back) (hroom : pos + m.back.length = top)
    (hxs : xs.length ≤ pos) (hnew : cells'.drop (pos - xs.length) = xs ++ cells.drop pos) :
    cells'.drop (pos - xs.length) = (m.push xs).back ∧
      pos - xs.length + (m.push xs).back.length = top := by
  rw [hnew, hback]
  refine ⟨rfl, ?_⟩
  simp only [push, List.length_append]
  omega

end Cells

end Pushed

section Deliveries
variable {P U buffer : List UInt8} {offset len : Nat}

theorem length_deliver (hroom : offset + len ≤ buffer.length) :
    (deliver P buffer offset len).2.1.length = buffer.length := by
  simp only [deliver, List.length_append, List.length_take, List.length_drop]
  omega

/-- What was pushed back is enough. -/
theorem deliver_front (hle : len ≤ P.length) :
    (deliver (P ++ U) buffer offset len).2 = (deliver P buffer offset len).2 := by
  have hmin : min len (P ++ U).length = len := by
    rw [List.length_append]
    omega
  simp only [deliver, hmin, Nat.min_eq_left hle, List.take_append_of_le_length hle]

/-- The others come from below, behind what was pushed back. -/
theorem deliver_behind (hlt : P.length < len) (hroom : offset + len ≤ buffer.length) :
    let d := deliver U (deliver P buffer offset len).2.1 (offset + P.length) (len - P.length)
    (deliver (P ++ U) buffer offset len).2 = (d.2.1, P.length + d.2.2) := by
  obtain ⟨buffer', hwrite, _, hdeliver⟩ := deliver_add (m := P ++ U) (n := P.length) len
    (Nat.le_of_lt hlt) (by simp) hroom
  rw [List.drop_left] at hdeliver
  rw [List.take_left, Ranges.write, if_pos (by omega), Option.some.injEq] at hwrite
  have hfront : (deliver P buffer offset len).2.1 = buffer' := by
    rw [← hwrite]
    simp only [deliver, Nat.min_eq_right (Nat.le_of_lt hlt), List.take_length]
  dsimp only
  rw [hfront, hdeliver _ rfl]

end Deliveries

namespace Pushback
variable {back buf P : List UInt8} {off len pos turns : Nat}

/-- The loop delivers what was pushed back. -/
theorem takeLoop_eq (back : List UInt8) (turns : Nat) : ∀ pos buf bytesRead, bytesRead + turns = len →
    off + len ≤ buf.length →
    takeLoop back off len turns pos buf bytesRead =
      some (pos + min turns (back.drop pos).length,
        (deliver (back.drop pos) buf (off + bytesRead) turns).2.1,
        bytesRead + min turns (back.drop pos).length) := by
  induction turns with
  | zero =>
    intro pos buf bytesRead _ _
    rw [takeLoop, deliver_zero]
    simp
  | succ turns ih =>
    intro pos buf bytesRead hlen hroom
    rw [takeLoop]
    split
    · rename_i hmore
      have hdrop : back.drop pos = back[pos] :: back.drop (pos + 1) :=
        List.drop_eq_getElem_cons hmore.1
      obtain ⟨buf', hwrite, hlength, hdeliver⟩ := deliver_add (m := back.drop pos) (n := 1)
        (turns + 1) (by omega) (by rw [List.length_drop]; omega)
        (show off + bytesRead + (turns + 1) ≤ buf.length by omega)
      have hloop := ih (pos + 1) buf' (bytesRead + 1) (by omega) (by omega)
      rw [List.drop_drop, Nat.add_assoc off] at hdeliver
      rw [hdeliver _ rfl]
      have hone : (back.drop pos).take 1 = [back[pos]] := by
        rw [hdrop]
        rfl
      rw [hone] at hwrite
      simp only [List.getElem?_eq_getElem hmore.1, hwrite, Option.bind_eq_bind, Option.bind_some,
        hloop, Nat.add_sub_cancel, List.length_drop]
      have hmin : 1 + min turns (back.length - (pos + 1)) =
          min (turns + 1) (back.length - pos) := by omega
      rw [Nat.add_assoc, Nat.add_assoc, hmin]
    · rename_i hend
      have hnil : back.drop pos = [] := by
        rw [List.drop_eq_nil_iff]
        omega
      simp [hnil, deliver]

/-- One cell is put in front of what was pushed back. -/
theorem write_before {back : List UInt8} {pos : Nat} (hpos : 0 < pos) (hle : pos ≤ back.length)
    (c : UInt8) :
    ∃ back', Ranges.write back (pos - 1) [c] = some back' ∧ back'.length = back.length ∧
      back'.drop (pos - 1) = [c] ++ back.drop pos := by
  obtain ⟨A, B, C, rfl, hA, hB⟩ := Ranges.cut (l := back) (i := pos - 1) (n := 1) (by omega)
  refine ⟨A ++ [c] ++ C, Ranges.write_mid hA hB, ?_, ?_⟩
  · simp only [List.length_append, List.length_singleton, hB]
  · have hlen : (A ++ B).length = pos := by
      rw [List.length_append]
      omega
    have hrest : (A ++ B ++ C).drop pos = C := List.drop_left' hlen
    rw [hrest, List.append_assoc]
    exact List.drop_left' hA

/-- The loop of `unread` puts the range in front of what was pushed back. -/
theorem unreadLoop_eq (buf : List UInt8) (off turns : Nat) : ∀ (back : List UInt8) pos,
    turns ≤ pos → pos ≤ back.length → off + turns ≤ buf.length →
    ∃ back', unreadLoop buf off turns back pos = some (back', pos - turns) ∧
      back'.length = back.length ∧
      back'.drop (pos - turns) = (buf.drop off).take turns ++ back.drop pos := by
  induction turns with
  | zero =>
    intro back pos _ _ _
    exact ⟨back, rfl, rfl, rfl⟩
  | succ turns ih =>
    intro back pos hpos hback hbuf
    have hc : off + turns < buf.length := by omega
    have hsub : pos - 1 - turns = pos - (turns + 1) := by omega
    obtain ⟨back₁, hwrite, hlength₁, hdrop₁⟩ := write_before (by omega) hback buf[off + turns]
    obtain ⟨back', hloop, hlength', hdrop⟩ := ih back₁ (pos - 1) (by omega) (by omega) (by omega)
    rw [hsub] at hloop hdrop
    refine ⟨back', ?_, hlength'.trans hlength₁, ?_⟩
    · simp only [unreadLoop, List.getElem?_eq_getElem hc, hwrite, Option.bind_eq_bind,
        Option.bind_some, hloop]
    · have hlast : (buf.drop off).take (turns + 1) =
          (buf.drop off).take turns ++ [buf[off + turns]] := by
        rw [List.take_add_one, List.getElem?_drop, List.getElem?_eq_getElem hc]
        rfl
      rw [hlast, List.append_assoc, ← hdrop₁, hdrop]

/-- A position behind the buffer makes the first turn write behind it too. -/
theorem unreadLoop_behind (hback : back.length < pos) (hturns : 0 < turns) :
    unreadLoop buf off turns back pos = none := by
  obtain ⟨turns, rfl⟩ := Nat.exists_eq_add_one.mpr hturns
  have hroom : ¬pos - 1 + 1 ≤ back.length := by omega
  cases hc : buf[off + turns]? with
  | none => simp [unreadLoop, hc]
  | some c => simp [unreadLoop, hc, Ranges.write, hroom]

end Pushback

namespace PushbackReader
open Pushback
variable {S : Type} {inp : AbstractReader S} {rest : S → List UInt8} {n k off len : Nat}
  {s : PushbackReader S} {m : Pushed} {cBuf : List UInt8} {op : Op}

/-- A call on the list, with room for `n` pushed back. -/
def serve (n : Nat) (m : Pushed) : Op → Pushed × CharAnswer
  | .read => (m.pass 1, .char m.all.head?)
  | .range cBuf off len =>
    if cBuf.length < off ∨ cBuf.length - off < len then
      (m, .thrown (.outOfRange "PushbackReader::read: Buffer overflow."))
    else if len = 0 then (m, .filled cBuf 0)
    else
      let f := fetch m.all cBuf off len
      (m.pass len, .filled f.2.1 (asInt f.2.2))
  | .vector cBuf =>
    let f := fetch m.all cBuf 0 cBuf.length
    (m.pass cBuf.length, .filled f.2.1 f.2.2)
  | .skip k => (m.pass k, .skipped (min k m.all.length))
  | .unread cBuf off len =>
    if cBuf.length < off ∨ cBuf.length - off < len then
      (m, .thrown (.outOfRange "PushbackReader::unread: Buffer offset/length out of range"))
    else if n < m.back.length + len then (m, .thrown overflow)
    else (m.push ((cBuf.drop off).take len), .done)
  | .unreadChar c =>
    if n < m.back.length + 1 then (m, .thrown overflow) else (m.push [c], .done)

/-- What the calls to come will see. -/
def Represents (rest : S → List UInt8) (s : PushbackReader S) (m : Pushed) : Prop :=
  s.buffer_.drop s.buffer_pos_ = m.back ∧ rest s.in_ = m.below

/-- Vectors are read past what was pushed back, and only where the buffer is as large as the
position first says is there room in it. -/
def Fits (rest : S → List UInt8) (n : Nat) (s : PushbackReader S) : Op → Prop
  | .vector cBuf => s.buffer_.drop s.buffer_pos_ = [] ∨ cBuf = [] ∧ rest s.in_ ≠ []
  | .unread cBuf off len =>
    n = 1024 ∨ len = 0 ∨ 1024 < len ∨ cBuf.length < off ∨ cBuf.length - off < len
  | .unreadChar _ => n = 1024
  | _ => True

structure Holds (rest : S → List UInt8) (n : Nat) (s : PushbackReader S) (m : Pushed) : Prop where
  isOpen : s.closed_ = false
  cells : s.buffer_.length = n
  small : n ≤ 1024
  order : Represents rest s m
  room : s.buffer_pos_ + m.back.length = 1024

theorem create_holds (rest : S → List UInt8) (hn : 1 ≤ n) (hsmall : n ≤ 1024) (reader : S) :
    ∃ s, create reader n = .ok s ∧ Holds rest n s ⟨[], rest reader⟩ := by
  refine ⟨_, if_neg (by omega), rfl, List.length_replicate, hsmall, ⟨?_, rfl⟩, rfl⟩
  rw [List.drop_eq_nil_iff, List.length_replicate]
  exact hsmall

theorem Holds.length_back (h : Holds rest n s m) : m.back.length = n - s.buffer_pos_ := by
  rw [← h.order.1, List.length_drop, h.cells]

theorem Holds.notClosed (h : Holds rest n s m) : ¬s.closed_ = true := by
  simp [h.isOpen]

/-- Passing over some of what was pushed back. -/
theorem Holds.take (h : Holds rest n s m) (hk : k ≤ m.back.length) :
    Holds rest n { s with buffer_pos_ := s.buffer_pos_ + k } (m.pass k) := by
  obtain ⟨hback, hbelow, hroom⟩ := Pushed.pass_front h.order.1 h.room hk
  exact ⟨h.isOpen, h.cells, h.small, ⟨hback, h.order.2.trans hbelow.symm⟩, hroom⟩

/-- Passing over all of it, and over some of what is below. -/
theorem Holds.through (h : Holds rest n s m) (hk : m.back.length ≤ k) (in_ : S)
    (hin : rest in_ = m.below.drop (k - m.back.length)) :
    Holds rest n { s with in_ := in_, buffer_pos_ := s.buffer_pos_ + m.back.length }
      (m.pass k) := by
  have hcells : s.buffer_.length ≤ 1024 := h.cells.trans_le h.small
  obtain ⟨hback, hroom⟩ := Pushed.pass_through hcells h.room hk
  exact ⟨h.isOpen, h.cells, h.small, ⟨hback, hin⟩, hroom⟩

theorem read_holds (hreads : Reads inp rest) (h : Holds rest n s m) :
    ∃ s', s.read inp = some (s', (serve n m .read).2) ∧ Holds rest n s' (serve n m .read).1 := by
  have hback := h.order.1
  have hlength := h.length_back
  have hcells := h.cells
  unfold read
  rw [if_neg h.notClosed]
  split
  · rename_i hlt
    rw [List.drop_eq_getElem_cons hlt] at hback
    have hhead : m.all.head? = some s.buffer_[s.buffer_pos_] := by
      rw [Pushed.all, ← hback]
      rfl
    rw [List.getElem?_eq_getElem hlt, serve, hhead]
    exact ⟨_, rfl, h.take (by omega)⟩
  · rename_i hge
    have hnil : m.back = [] := List.eq_nil_of_length_eq_zero (by omega)
    have hread := hreads.read s.in_
    rw [Prod.mk.injEq, h.order.2] at hread
    have hhead : m.all.head? = (inp.read s.in_).2 := by
      rw [Pushed.all, hnil, hread.2]
      rfl
    rw [serve, hhead]
    have hthrough := h.through (k := 1) (by simp [hnil]) (inp.read s.in_).1
      (by simp [hnil, hread.1])
    rw [hnil] at hthrough
    exact ⟨_, rfl, hthrough⟩

theorem skip_holds (hreads : Reads inp rest) (h : Holds rest n s m) (k : Nat) :
    (s.skip inp k).2 = (serve n m (.skip k)).2 ∧
      Holds rest n (s.skip inp k).1 (serve n m (.skip k)).1 := by
  have hlength := h.length_back
  have hcells := h.cells
  have htaken : (if s.buffer_pos_ < s.buffer_.length then min k (s.buffer_.length - s.buffer_pos_)
      else 0) = min k m.back.length := by
    split <;> omega
  unfold skip
  rw [if_neg h.notClosed, htaken]
  dsimp only
  split
  · rename_i hmore
    have hmin : min k m.back.length = m.back.length := by omega
    have hskip := hreads.skip s.in_ (k - m.back.length)
    rw [Prod.mk.injEq, h.order.2] at hskip
    have hcount : m.back.length + min (k - m.back.length) m.below.length =
        min k (m.back ++ m.below).length := by
      rw [List.length_append]
      omega
    rw [hmin, hskip.2, hcount]
    exact ⟨rfl, h.through (by omega) _ hskip.1⟩
  · rename_i hall
    have hmin : min k m.back.length = k := by omega
    have hcount : k = min k (m.back ++ m.below).length := by
      rw [List.length_append]
      omega
    rw [hmin]
    refine ⟨?_, h.take (by omega)⟩
    rw [serve, Pushed.all, ← hcount]

theorem fetch_front (hlen : 0 < len) (hle : len ≤ m.back.length) :
    (fetch m.all cBuf off len).2 = ((deliver m.back cBuf off len).2.1, (len : Int)) := by
  have hsome : m.all ≠ [] := by
    rw [Pushed.all, ← List.length_pos_iff, List.length_append]
    omega
  have hcount : (deliver m.back cBuf off len).2.2 = len := Nat.min_eq_left hle
  rw [fetch, if_neg hsome]
  dsimp only
  rw [Pushed.all, deliver_front hle, hcount]

/-- What is below comes behind what was pushed back, and tells of the end where there is neither. -/
theorem fetch_behind (hlt : m.back.length < len) (hroom : off + len ≤ cBuf.length) :
    let f := fetch m.below (deliver m.back cBuf off len).2.1 (off + m.back.length)
      (len - m.back.length)
    (fetch m.all cBuf off len).2 = (f.2.1,
      if f.2.2 = -1 then if 0 < m.back.length then (m.back.length : Int) else -1
      else ((m.back.length + f.2.2.toNat : Nat) : Int)) := by
  dsimp only
  cases hbelow : m.below with
  | nil =>
    rw [Pushed.all, hbelow, List.append_nil]
    cases hback : m.back with
    | nil => simp [fetch, deliver]
    | cons c cs =>
      have hcount : (deliver (c :: cs) cBuf off len).2.2 = (c :: cs).length := by
        rw [← hback]
        exact Nat.min_eq_right (Nat.le_of_lt hlt)
      simp [fetch, hcount]
  | cons c cs =>
    have hall : m.all ≠ [] := by simp [Pushed.all, hbelow]
    have hcount : ∀ k : Nat, (k : Int) ≠ -1 := by omega
    rw [fetch, if_neg hall, fetch, if_neg (List.cons_ne_nil c cs)]
    dsimp only
    rw [if_neg (hcount _), Int.toNat_natCast, Pushed.all, hbelow, deliver_behind hlt hroom]

theorem readRange_holds (hreads : Reads inp rest) (h : Holds rest n s m) (cBuf : List UInt8)
    (off len : Nat) :
    ∃ s', s.readRange inp cBuf off len = some (s', (serve n m (.range cBuf off len)).2) ∧
      Holds rest n s' (serve n m (.range cBuf off len)).1 := by
  unfold readRange
  rw [if_neg h.notClosed]
  by_cases hbad : cBuf.length < off ∨ cBuf.length - off < len
  · have hserve : serve n m (.range cBuf off len) =
        (m, .thrown (.outOfRange "PushbackReader::read: Buffer overflow.")) := if_pos hbad
    rw [hserve, if_pos hbad]
    exact ⟨s, rfl, h⟩
  · have hroom : off + len ≤ cBuf.length := by omega
    have hserve : serve n m (.range cBuf off len) =
        if len = 0 then (m, .filled cBuf 0)
        else (m.pass len, .filled (fetch m.all cBuf off len).2.1
          (asInt (fetch m.all cBuf off len).2.2)) := if_neg hbad
    have hloop := takeLoop_eq s.buffer_ len s.buffer_pos_ cBuf 0 (Nat.zero_add _) hroom
    rw [h.order.1, Nat.zero_add, Nat.add_zero] at hloop
    rw [hserve, if_neg hbad, hloop]
    simp only [Option.bind_eq_bind, Option.bind_some]
    by_cases hzero : len = 0
    · subst hzero
      refine ⟨_, by simp [deliver_zero, asInt]; rfl, ?_⟩
      simpa using h
    · rw [if_neg hzero]
      split
      · rename_i hmore
        have hmin : min len m.back.length = m.back.length := by omega
        rw [hmin] at hmore ⊢
        have hread := hreads.range s.in_ (deliver m.back cBuf off len).2.1 (off + m.back.length)
          (len - m.back.length) (by rw [length_deliver hroom]; omega)
        rw [Prod.mk.injEq, h.order.2] at hread
        obtain ⟨hleft, hgot⟩ := hread
        rw [fetch_left] at hleft
        have hthrough := h.through (k := len) (Nat.le_of_lt hmore) _ hleft
        rw [fetch_behind hmore hroom, hgot]
        dsimp only
        split
        · refine ⟨_, ?_, hthrough⟩
          split <;> rfl
        · exact ⟨_, rfl, hthrough⟩
      · rename_i hall
        have hmin : min len m.back.length = len := by omega
        rw [hmin, fetch_front (by omega) (by omega)]
        exact ⟨_, rfl, h.take (by omega)⟩

/-- A vector is served as from the list exactly where nothing has been pushed back, or where it is
empty and there is more to come from below. -/
theorem readVector_iff (hreads : Reads inp rest) (h : Holds rest n s m) :
    (s.readVector inp cBuf).2 = (serve n m (.vector cBuf)).2 ∧
        Represents rest (s.readVector inp cBuf).1 (serve n m (.vector cBuf)).1 ↔
      Fits rest n s (.vector cBuf) := by
  have hvector := hreads.vector s.in_ cBuf
  rw [Prod.mk.injEq, h.order.2] at hvector
  obtain ⟨hleft, hgot⟩ := hvector
  rw [fetch_left] at hleft
  have hanswer : (s.readVector inp cBuf).2 = .filled (fetch m.below cBuf 0 cBuf.length).2.1
      (fetch m.below cBuf 0 cBuf.length).2.2 := by
    rw [← hgot]
    rfl
  have horder : Represents rest (s.readVector inp cBuf).1 (serve n m (.vector cBuf)).1 ↔
      m.back = m.back.drop cBuf.length ∧
        m.below.drop cBuf.length = m.below.drop (cBuf.length - m.back.length) := by
    change s.buffer_.drop s.buffer_pos_ = m.back.drop cBuf.length ∧
      rest (inp.readVector s.in_ cBuf).1 = m.below.drop (cBuf.length - m.back.length) ↔ _
    rw [h.order.1, hleft]
  rw [hanswer, horder, Fits, h.order.1, h.order.2, serve]
  constructor
  · intro h
    obtain ⟨hsame, hback, _⟩ := h
    by_cases hnil : m.back = []
    · exact .inl hnil
    · have hpos := List.length_pos_of_ne_nil hnil
      have hlength := congrArg List.length hback
      rw [List.length_drop] at hlength
      have hempty : cBuf = [] := List.eq_nil_of_length_eq_zero (by omega)
      refine .inr ⟨hempty, ?_⟩
      intro hbelow
      simp [hempty, hbelow, fetch, Pushed.all, hnil, deliver] at hsame
  · intro h
    rcases h with hnil | ⟨rfl, hbelow⟩
    · simp [hnil, Pushed.all]
    · simp [fetch, Pushed.all, hbelow, deliver]

/-- What is pushed back comes in front, where the buffer is as large as it should be. -/
theorem Holds.push (h : Holds rest 1024 s m) (xs : List UInt8) {back : List UInt8}
    (hroom : xs.length ≤ s.buffer_pos_) (hlength : back.length = s.buffer_.length)
    (hback : back.drop (s.buffer_pos_ - xs.length) = xs ++ s.buffer_.drop s.buffer_pos_) :
    Holds rest 1024 { s with buffer_ := back, buffer_pos_ := s.buffer_pos_ - xs.length }
      (m.push xs) := by
  obtain ⟨horder, hpos⟩ := Pushed.push_front h.order.1 h.room hroom hback
  exact ⟨h.isOpen, hlength.trans h.cells, h.small, ⟨horder, h.order.2⟩, hpos⟩

theorem unreadRange_holds (h : Holds rest n s m) (cBuf : List UInt8) (off len : Nat)
    (hfits : Fits rest n s (.unread cBuf off len)) :
    ∃ s', s.unreadRange cBuf off len = some (s', (serve n m (.unread cBuf off len)).2) ∧
      Holds rest n s' (serve n m (.unread cBuf off len)).1 := by
  have hroom := h.room
  have hlength := h.length_back
  unfold unreadRange
  rw [if_neg h.notClosed]
  by_cases hbad : cBuf.length < off ∨ cBuf.length - off < len
  · have hserve : serve n m (.unread cBuf off len) = (m, .thrown
        (.outOfRange "PushbackReader::unread: Buffer offset/length out of range")) := if_pos hbad
    rw [hserve, if_pos hbad]
    exact ⟨s, rfl, h⟩
  · have hserve : serve n m (.unread cBuf off len) =
        if n < m.back.length + len then (m, .thrown overflow)
        else (m.push ((cBuf.drop off).take len), .done) := if_neg hbad
    rw [hserve, if_neg hbad]
    by_cases hfull : s.buffer_pos_ < len
    · have hsmall := h.small
      rw [if_pos hfull, if_pos (by omega)]
      exact ⟨s, rfl, h⟩
    · rw [if_neg hfull]
      by_cases hzero : len = 0
      · subst hzero
        rw [if_neg (by omega)]
        exact ⟨s, rfl, by simpa [Pushed.push] using h⟩
      · have hn : n = 1024 := by
          simp only [Fits] at hfits
          omega
        subst hn
        have hcells := h.cells
        have htake : ((cBuf.drop off).take len).length = len := by
          rw [List.length_take, List.length_drop]
          omega
        obtain ⟨back', hloop, hlength', hback⟩ := unreadLoop_eq cBuf off len s.buffer_
          s.buffer_pos_ (by omega) (by omega) (by omega)
        have hpush := h.push ((cBuf.drop off).take len) (by omega) hlength'
          (by rw [htake]; exact hback)
        rw [if_neg (by omega), hloop]
        rw [htake] at hpush
        exact ⟨_, rfl, hpush⟩

theorem unreadChar_holds (h : Holds rest n s m) (c : UInt8)
    (hfits : Fits rest n s (.unreadChar c)) :
    ∃ s', s.unreadChar c = some (s', (serve n m (.unreadChar c)).2) ∧
      Holds rest n s' (serve n m (.unreadChar c)).1 := by
  have hroom := h.room
  have hcells := h.cells
  obtain rfl : n = 1024 := hfits
  unfold unreadChar serve
  rw [if_neg h.notClosed]
  dsimp only
  by_cases hfull : s.buffer_pos_ = 0
  · rw [if_pos hfull, if_pos (by omega)]
    exact ⟨s, rfl, h⟩
  · have hpos := Nat.pos_of_ne_zero hfull
    obtain ⟨back, hwrite, hlength, hback⟩ :=
      write_before hpos (by omega : s.buffer_pos_ ≤ s.buffer_.length) c
    rw [if_neg hfull, if_neg (by omega), hwrite]
    exact ⟨_, rfl, h.push [c] hpos hlength hback⟩

theorem step_holds (hreads : Reads inp rest) (s : PushbackReader S) (m : Pushed) (op : Op)
    (h : Holds rest n s m) (hop : Fits rest n s op) :
    ∃ s', step inp s op = some (s', (serve n m op).2) ∧ Holds rest n s' (serve n m op).1 := by
  cases op with
  | read => exact read_holds hreads h
  | range cBuf off len => exact readRange_holds hreads h cBuf off len
  | vector cBuf =>
    obtain ⟨hanswer, horder⟩ := (readVector_iff hreads h).mpr hop
    refine ⟨(s.readVector inp cBuf).1, by rw [step, ← hanswer], h.isOpen, h.cells, h.small, horder,
      ?_⟩
    rw [← horder.1, ← h.room, ← h.order.1]
    rfl
  | skip k =>
    obtain ⟨hanswer, h'⟩ := skip_holds hreads h k
    exact ⟨(s.skip inp k).1, by rw [step, ← hanswer], h'⟩
  | unread cBuf off len => exact unreadRange_holds h cBuf off len hop
  | unreadChar c => exact unreadChar_holds h c hop

/-- What does not fit is read past what was pushed back, or written behind the buffer. -/
theorem unfit_serve (hreads : Reads inp rest) (h : Holds rest n s m) (hop : ¬Fits rest n s op)
    {s' : PushbackReader S} (hstep : step inp s op = some (s', (serve n m op).2)) :
    ¬Represents rest s' (serve n m op).1 := by
  have hsmall := h.small
  have hroom := h.room
  have hlength := h.length_back
  have hcells := h.cells
  cases op with
  | vector cBuf =>
    intro horder
    rw [step, Option.some.injEq] at hstep
    apply hop
    rw [← readVector_iff hreads h, hstep]
    exact ⟨rfl, horder⟩
  | unread cBuf off len =>
    simp only [Fits, not_or] at hop
    obtain ⟨hn, hlen, hfull, hbad⟩ := hop
    have hnone : s.unreadRange cBuf off len = none := by
      rw [unreadRange, if_neg h.notClosed, if_neg (by omega), if_neg (by omega),
        unreadLoop_behind (by omega) (by omega)]
      rfl
    rw [step, hnone] at hstep
    cases hstep
  | unreadChar c =>
    have hn : n ≠ 1024 := hop
    have hbehind : ¬s.buffer_pos_ - 1 + [c].length ≤ s.buffer_.length := by
      rw [List.length_singleton]
      omega
    have hnone : s.unreadChar c = none := by
      rw [unreadChar, if_neg h.notClosed, if_neg (by omega), Ranges.write, if_neg hbehind]
      rfl
    rw [step, hnone] at hstep
    cases hstep
  | read | range | skip => exact absurd trivial hop

/-- A reader keeps to the list exactly where its buffer is not too large and all calls fit; a buffer
that is too large starts with what nobody pushed back. -/
theorem keeps_iff (hreads : Reads inp rest) (hn : 1 ≤ n) (reader : S) :
    ∃ s, create reader n = .ok s ∧ ∀ ops,
      (Refines (step inp) (serve n) (Represents rest) s ⟨[], rest reader⟩ ops ↔
        n ≤ 1024 ∧ Meets (step inp) (Fits rest n) s ops) := by
  by_cases hsmall : n ≤ 1024
  · obtain ⟨s, hcreate, h⟩ := create_holds rest hn hsmall reader
    refine ⟨s, hcreate, ?_⟩
    intro ops
    rw [and_iff_right hsmall]
    exact refines_iff (fun _ _ h => h.order) (step_holds hreads)
      (fun _ _ _ h hop _ hstep => unfit_serve hreads h hop hstep) ops h
  · refine ⟨_, if_neg (by omega), ?_⟩
    intro ops
    refine iff_of_false ?_ (fun hall => hsmall hall.1)
    intro hall
    obtain ⟨s', hrun, hback, _⟩ := hall [] (List.nil_prefix)
    cases hrun
    rw [execModel, List.drop_eq_nil_iff, List.length_replicate] at hback
    exact hsmall hback

end PushbackReader

namespace PushbackInputStream
open Pushback
variable {S : Type} {inp : InputStream S} {rest : S → List UInt8} {n k offset len : Nat}
  {s : PushbackInputStream S} {m : Pushed} {buffer : List UInt8} {op : Op}

/-- A call on the list, with room for `n` pushed back. -/
def serve (n : Nat) (m : Pushed) : Op → Pushed × ByteAnswer
  | .read => (m.pass 1, .byte (m.all.head?.getD 255))
  | .range buffer offset len =>
    if buffer.length < offset ∨ buffer.length - offset < len then
      (m, .thrown (.outOfRange "PushbackInputStream::read: Buffer overflow"))
    else
      let d := deliver m.all buffer offset len
      (m.pass len, .filled d.2.1 d.2.2)
  | .vector buffer =>
    let d := deliver m.all buffer 0 buffer.length
    (m.pass buffer.length, .filled d.2.1 d.2.2)
  | .skip k => (m.pass k.toNat, .skipped (min k.toNat m.all.length : Nat))
  | .unread buffer offset len =>
    if buffer.length < offset ∨ buffer.length - offset < len then
      (m, .thrown (.outOfRange "PushbackInputStream::unread: Buffer offset/length out of range"))
    else if n < m.back.length + len then (m, .thrown overflow)
    else (m.push ((buffer.drop offset).take len), .done)
  | .unreadByte b =>
    if n < m.back.length + 1 then (m, .thrown overflow) else (m.push [b], .done)

/-- What the calls to come will see. -/
def Represents (rest : S → List UInt8) (s : PushbackInputStream S) (m : Pushed) : Prop :=
  s.pushback_buffer_.drop s.buffer_pos_ = m.back ∧ rest s.input_stream_ = m.below

/-- Bytes are skipped past what was pushed back, and an empty range at the end of a vector is
thought to be outside. -/
def Fits (s : PushbackInputStream S) : Op → Prop
  | .range buffer offset len => ¬(offset = buffer.length ∧ len = 0)
  | .vector buffer => buffer ≠ []
  | .skip k => k ≤ 0 ∨ s.pushback_buffer_.drop s.buffer_pos_ = []
  | .unread buffer offset len => ¬(offset = buffer.length ∧ len = 0)
  | _ => True

structure Holds (rest : S → List UInt8) (n : Nat) (s : PushbackInputStream S) (m : Pushed) :
    Prop where
  cells : s.pushback_buffer_.length = n
  order : Represents rest s m
  room : s.buffer_pos_ + m.back.length = n

theorem create_holds (rest : S → List UInt8) (n : Nat) (inputStream : S) :
    Holds rest n (create inputStream n) ⟨[], rest inputStream⟩ := by
  have hlen : (create inputStream n).pushback_buffer_.length = n := List.length_replicate
  exact ⟨hlen, ⟨List.drop_of_length_le (Nat.le_of_eq hlen), rfl⟩, rfl⟩

theorem Holds.take (h : Holds rest n s m) (hk : k ≤ m.back.length) :
    Holds rest n { s with buffer_pos_ := s.buffer_pos_ + k } (m.pass k) := by
  obtain ⟨hback, hbelow, hroom⟩ := Pushed.pass_front h.order.1 h.room hk
  exact ⟨h.cells, ⟨hback, h.order.2.trans hbelow.symm⟩, hroom⟩

theorem Holds.through (h : Holds rest n s m) (hk : m.back.length ≤ k) (input_stream_ : S)
    (eof : Bool) (hin : rest input_stream_ = m.below.drop (k - m.back.length)) :
    Holds rest n ⟨input_stream_, eof, s.pushback_buffer_, s.buffer_pos_ + m.back.length⟩
      (m.pass k) := by
  obtain ⟨hback, hroom⟩ := Pushed.pass_through (Nat.le_of_eq h.cells) h.room hk
  exact ⟨h.cells, ⟨hback, hin⟩, hroom⟩

theorem Holds.push (h : Holds rest n s m) (xs : List UInt8) {back : List UInt8}
    (hroom : xs.length ≤ s.buffer_pos_) (hlength : back.length = s.pushback_buffer_.length)
    (hback : back.drop (s.buffer_pos_ - xs.length) =
      xs ++ s.pushback_buffer_.drop s.buffer_pos_) :
    Holds rest n { s with pushback_buffer_ := back, buffer_pos_ := s.buffer_pos_ - xs.length }
      (m.push xs) := by
  obtain ⟨horder, hpos⟩ := Pushed.push_front h.order.1 h.room hroom hback
  exact ⟨hlength.trans h.cells, ⟨horder, h.order.2⟩, hpos⟩

theorem read_holds (hstreams : Streams inp rest) (h : Holds rest n s m) :
    ∃ s', s.read inp = some (s', (serve n m .read).2) ∧ Holds rest n s' (serve n m .read).1 := by
  have hback := h.order.1
  have hroom := h.room
  have hcells := h.cells
  unfold read
  split
  · rename_i hlt
    rw [List.drop_eq_getElem_cons hlt] at hback
    have hhead : m.all.head? = some s.pushback_buffer_[s.buffer_pos_] := by
      rw [Pushed.all, ← hback]
      rfl
    rw [List.getElem?_eq_getElem hlt, serve, hhead]
    exact ⟨_, rfl, h.take (by omega)⟩
  · rename_i hge
    have hnil : m.back = [] := List.eq_nil_of_length_eq_zero (by omega)
    have hread := hstreams.read s.input_stream_
    rw [Prod.mk.injEq, h.order.2] at hread
    have hall : m.all = m.below := by rw [Pushed.all, hnil, List.nil_append]
    rw [serve, hall, ← hread.2]
    have hthrough := h.through (k := 1) (by simp [hnil]) (inp.read s.input_stream_).1
      (s.eof || inp.isEof (inp.read s.input_stream_).1) (by simp [hnil, hread.1])
    rw [hnil] at hthrough
    exact ⟨_, rfl, hthrough⟩

theorem readRange_holds (hstreams : Streams inp rest) (h : Holds rest n s m) (buffer : List UInt8)
    (offset len : Nat) (hfits : ¬(offset = buffer.length ∧ len = 0)) :
    ∃ s', s.readRange inp buffer offset len = some (s', (serve n m (.range buffer offset len)).2) ∧
      Holds rest n s' (serve n m (.range buffer offset len)).1 := by
  unfold readRange
  by_cases hbad : buffer.length < offset ∨ buffer.length - offset < len
  · have hserve : serve n m (.range buffer offset len) =
        (m, .thrown (.outOfRange "PushbackInputStream::read: Buffer overflow")) := if_pos hbad
    rw [hserve, if_pos (by omega)]
    exact ⟨s, rfl, h⟩
  · have hroom : offset + len ≤ buffer.length := by omega
    have hserve : serve n m (.range buffer offset len) =
        (m.pass len, .filled (deliver m.all buffer offset len).2.1
          (deliver m.all buffer offset len).2.2) := if_neg hbad
    have hloop := takeLoop_eq s.pushback_buffer_ len s.buffer_pos_ buffer 0 (Nat.zero_add _) hroom
    rw [h.order.1, Nat.zero_add, Nat.add_zero] at hloop
    rw [hserve, if_neg (by omega), hloop, Pushed.all]
    simp only [Option.bind_eq_bind, Option.bind_some]
    split
    · rename_i hmore
      have hmin : min len m.back.length = m.back.length := by omega
      rw [hmin] at hmore ⊢
      have hread := hstreams.range s.input_stream_ (deliver m.back buffer offset len).2.1
        (offset + m.back.length) (len - m.back.length) (by rw [length_deliver hroom]; omega)
      rw [Prod.ext_iff, h.order.2] at hread
      obtain ⟨hleft, hgot⟩ := hread
      rw [deliver_left] at hleft
      rw [deliver_behind hmore hroom]
      dsimp only at hgot ⊢
      rw [hgot]
      exact ⟨_, rfl, h.through (Nat.le_of_lt hmore) _ _ hleft⟩
    · rename_i hall
      have hle : len ≤ m.back.length := by omega
      have hcount : (deliver m.back buffer offset len).2.2 = len := Nat.min_eq_left hle
      rw [Nat.min_eq_left hle, deliver_front hle, hcount]
      exact ⟨_, rfl, h.take hle⟩

/-- A skip is served as from the list exactly where nothing has been pushed back, or nothing is to
be skipped. -/
theorem skip_iff (hstreams : Streams inp rest) (h : Holds rest n s m) (j : Int) :
    (s.skip inp j).2 = (serve n m (.skip j)).2 ∧
        Represents rest (s.skip inp j).1 (serve n m (.skip j)).1 ↔
      Fits s (.skip j) := by
  have hskip := hstreams.skip s.input_stream_ j
  rw [Prod.mk.injEq, h.order.2] at hskip
  obtain ⟨hleft, hgot⟩ := hskip
  have hanswer : (s.skip inp j).2 = .skipped (min j.toNat m.below.length : Nat) := by
    rw [← hgot]
    rfl
  have horder : Represents rest (s.skip inp j).1 (serve n m (.skip j)).1 ↔
      m.back = m.back.drop j.toNat ∧
        m.below.drop j.toNat = m.below.drop (j.toNat - m.back.length) := by
    change s.pushback_buffer_.drop s.buffer_pos_ = m.back.drop j.toNat ∧
      rest (inp.skip s.input_stream_ j).1 = m.below.drop (j.toNat - m.back.length) ↔ _
    rw [h.order.1, hleft]
  rw [hanswer, horder, Fits, h.order.1, serve]
  constructor
  · intro h
    obtain ⟨_, hback, _⟩ := h
    have hlength := congrArg List.length hback
    rw [List.length_drop] at hlength
    by_cases hnone : j ≤ 0
    · exact .inl hnone
    · exact .inr (List.eq_nil_of_length_eq_zero (by omega))
  · intro h
    rcases h with hnone | hnil
    · have hzero : j.toNat = 0 := by omega
      simp [hzero]
    · simp [hnil, Pushed.all]

theorem unreadRange_holds (h : Holds rest n s m) (buffer : List UInt8) (offset len : Nat)
    (hfits : ¬(offset = buffer.length ∧ len = 0)) :
    ∃ s', s.unreadRange buffer offset len = some (s', (serve n m (.unread buffer offset len)).2) ∧
      Holds rest n s' (serve n m (.unread buffer offset len)).1 := by
  have hroom := h.room
  have hcells := h.cells
  unfold unreadRange
  by_cases hbad : buffer.length < offset ∨ buffer.length - offset < len
  · have hserve : serve n m (.unread buffer offset len) = (m, .thrown
        (.outOfRange "PushbackInputStream::unread: Buffer offset/length out of range")) :=
      if_pos hbad
    rw [hserve, if_pos (by omega)]
    exact ⟨s, rfl, h⟩
  · have hserve : serve n m (.unread buffer offset len) =
        if n < m.back.length + len then (m, .thrown overflow)
        else (m.push ((buffer.drop offset).take len), .done) := if_neg hbad
    rw [hserve, if_neg (by omega)]
    by_cases hfull : s.buffer_pos_ < len
    · rw [if_pos hfull, if_pos (by omega)]
      exact ⟨s, rfl, h⟩
    · have htake : ((buffer.drop offset).take len).length = len := by
        rw [List.length_take, List.length_drop]
        omega
      obtain ⟨back', hloop, hlength', hback⟩ := unreadLoop_eq buffer offset len
        s.pushback_buffer_ s.buffer_pos_ (by omega) (by omega) (by omega)
      have hpush := h.push ((buffer.drop offset).take len) (by omega) hlength'
        (by rw [htake]; exact hback)
      rw [if_neg hfull, if_neg (by omega), hloop]
      rw [htake] at hpush
      exact ⟨_, rfl, hpush⟩

theorem unreadByte_holds (h : Holds rest n s m) (b : UInt8) :
    ∃ s', s.unreadByte b = some (s', (serve n m (.unreadByte b)).2) ∧
      Holds rest n s' (serve n m (.unreadByte b)).1 := by
  have hroom := h.room
  have hcells := h.cells
  unfold unreadByte serve
  dsimp only
  by_cases hfull : s.buffer_pos_ = 0
  · rw [if_pos hfull, if_pos (by omega)]
    exact ⟨s, rfl, h⟩
  · have hpos := Nat.pos_of_ne_zero hfull
    obtain ⟨back, hwrite, hlength, hback⟩ :=
      write_before hpos (by omega : s.buffer_pos_ ≤ s.pushback_buffer_.length) b
    rw [if_neg hfull, if_neg (by omega), hwrite]
    exact ⟨_, rfl, h.push [b] hpos hlength hback⟩

theorem step_holds (hstreams : Streams inp rest) (s : PushbackInputStream S) (m : Pushed) (op : Op)
    (h : Holds rest n s m) (hop : Fits s op) :
    ∃ s', step inp s op = some (s', (serve n m op).2) ∧ Holds rest n s' (serve n m op).1 := by
  cases op with
  | read => exact read_holds hstreams h
  | range buffer offset len => exact readRange_holds hstreams h buffer offset len hop
  | vector buffer =>
    have hfits : ¬(0 = buffer.length ∧ buffer.length = 0) := by
      intro hempty
      exact hop (List.eq_nil_of_length_eq_zero hempty.2)
    have hserve : serve n m (.range buffer 0 buffer.length) = serve n m (.vector buffer) :=
      if_neg (by omega)
    rw [← hserve]
    exact readRange_holds hstreams h buffer 0 buffer.length hfits
  | skip k =>
    obtain ⟨hanswer, horder⟩ := (skip_iff hstreams h k).mpr hop
    refine ⟨(s.skip inp k).1, by rw [step, ← hanswer], h.cells, horder, ?_⟩
    rw [← horder.1, ← h.room, ← h.order.1]
    rfl
  | unread buffer offset len => exact unreadRange_holds h buffer offset len hop
  | unreadByte b => exact unreadByte_holds h b

/-- What does not fit is skipped past what was pushed back, or refused. -/
theorem unfit_serve (hstreams : Streams inp rest) (h : Holds rest n s m) (hop : ¬Fits s op)
    {s' : PushbackInputStream S} (hstep : step inp s op = some (s', (serve n m op).2)) :
    ¬Represents rest s' (serve n m op).1 := by
  have hroom := h.room
  cases op with
  | range buffer offset len =>
    obtain ⟨rfl, rfl⟩ := not_not.mp hop
    simp [step, readRange, serve] at hstep
  | vector buffer =>
    obtain rfl := not_not.mp hop
    simp [step, readVector, readRange, serve] at hstep
  | skip k =>
    intro horder
    rw [step, Option.some.injEq] at hstep
    apply hop
    rw [← skip_iff hstreams h, hstep]
    exact ⟨rfl, horder⟩
  | unread buffer offset len =>
    obtain ⟨rfl, rfl⟩ := not_not.mp hop
    have hspace : ¬n < m.back.length := by omega
    simp [step, unreadRange, serve, hspace] at hstep
  | read | unreadByte => exact absurd trivial hop

theorem keeps_iff (hstreams : Streams inp rest) (n : Nat) (inputStream : S) (ops : List Op) :
    Refines (step inp) (serve n) (Represents rest) (create inputStream n) ⟨[], rest inputStream⟩
        ops ↔
      Meets (step inp) Fits (create inputStream n) ops :=
  refines_iff (fun _ _ h => h.order) (step_holds hstreams)
    (fun _ _ _ h hop _ hstep => unfit_serve hstreams h hop hstep) ops
    (create_holds rest n inputStream)

end PushbackInputStream

/-- Exactly the runs of which all calls fit keep to the list. -/
theorem pushback_iff {S T : Type} {inp : AbstractReader S} {rest : S → List UInt8}
    {inp' : InputStream T} {rest' : T → List UInt8} (hreads : Reads inp rest)
    (hstreams : Streams inp' rest') {n : Nat} (hn : 1 ≤ n) (reader : S) (inputStream : T) :
    (∃ s, PushbackReader.create reader n = .ok s ∧ ∀ ops,
      (Refines (PushbackReader.step inp) (PushbackReader.serve n) (PushbackReader.Represents rest) s
          ⟨[], rest reader⟩ ops ↔
        n ≤ 1024 ∧ Meets (PushbackReader.step inp) (PushbackReader.Fits rest n) s ops)) ∧
    ∀ ops, Refines (PushbackInputStream.step inp') (PushbackInputStream.serve n)
        (PushbackInputStream.Represents rest') (PushbackInputStream.create inputStream n)
        ⟨[], rest' inputStream⟩ ops ↔
      Meets (PushbackInputStream.step inp') PushbackInputStream.Fits
        (PushbackInputStream.create inputStream n) ops :=
  ⟨PushbackReader.keeps_iff hreads hn reader,
    PushbackInputStream.keeps_iff hstreams n inputStream⟩

/-- With room for one, a character is pushed back behind the buffer; and what was pushed back is
skipped past. -/
theorem pushback_loses :
    (∃ s, PushbackReader.create ⟨[97], []⟩ 1 = .ok s ∧
      PushbackReader.step tapeReader s (.unreadChar 98) = none ∧
      ¬Refines (PushbackReader.step tapeReader) (PushbackReader.serve 1)
        (PushbackReader.Represents Tape.left) s ⟨[], [97]⟩ [.unreadChar 98]) ∧
    ∃ s, exec (PushbackInputStream.step tapeInput)
        (PushbackInputStream.create ⟨[97, 98], []⟩ 1) [.unreadByte 99, .skip 1, .read] =
        some (s, [.done, .skipped 1, .byte 99]) ∧
      (execModel (PushbackInputStream.serve 1) ⟨[], [97, 98]⟩
        [.unreadByte 99, .skip 1, .read]).2 = [.done, .skipped 1, .byte 97] := by
  refine ⟨⟨_, rfl, rfl, ?_⟩, _, rfl, rfl⟩
  intro hall
  obtain ⟨s', hrun, _⟩ := hall [.unreadChar 98] List.prefix_rfl
  cases hrun

theorem pushback_iff_calls : ∃ s, PushbackReader.create ⟨[97, 98], []⟩ 1024 = .ok s ∧
    (Refines (PushbackReader.step tapeReader) (PushbackReader.serve 1024)
        (PushbackReader.Represents Tape.left) s ⟨[], [97, 98]⟩ [.read, .skip 1] ↔
      1024 ≤ 1024 ∧ Meets (PushbackReader.step tapeReader) (PushbackReader.Fits Tape.left 1024) s
        [.read, .skip 1]) := by
  obtain ⟨s, hcreate, hruns⟩ := (pushback_iff tapeReader_reads tapeInput_streams
    (Nat.le_add_left 1 1023) ⟨[97, 98], []⟩ ⟨[], []⟩).1
  exact ⟨s, hcreate, hruns _⟩

end Cppforge.Io
