import OmxDb.Lib.InputStream

/-!
# Loops that read records to the end of a stream

`while (!s.eof()) { read a record; s.peek(); }`. What such a loop does is decided by what its body does on a good
stream, which is either whole records, or a place where the body breaks down, or what leaves the stream exhausted
(`Reads`). Then the loop halts on a good stream unless it breaks down behind some number of whole records
(`Behind`), and it takes at most one iteration more than there are bytes. On a stream that failed before its end it
never halts (`readLoop_halts_iff`).
-/

namespace RecordLoop

variable {ε σ : Type*}

/-- The call returns, or throws a fault of this kind. -/
def Halts (thrown : ε → Prop) {α : Type*} : Except ε α → Prop
  | .ok _ => True
  | .error fault => thrown fault

theorem halts_map (thrown : ε → Prop) {α β : Type*} (f : α → β) (result : Except ε α) :
    Halts thrown (result.map f) ↔ Halts thrown result := by
  cases result with
  | error fault => exact Iff.rfl
  | ok value => exact Iff.rfl

/-- The loop; the fuel counts the tests of its condition, and without fuel it is taken to diverge. -/
def readLoop (diverges : ε) (body : σ → IStream → Except ε (σ × IStream)) : Nat → σ → IStream → Except ε σ
  | 0, _, _ => .error diverges
  | fuel + 1, x, s =>
    if s.eof then .ok x
    else match body x s with
      | .error fault => .error fault
      | .ok (x, s) => readLoop diverges body fuel x s.peek

/-- Bytes of the second kind behind any number of records. -/
inductive Behind (record breaks : List UInt8 → Prop) : List UInt8 → Prop where
  | here {bytes : List UInt8} : breaks bytes → Behind record breaks bytes
  | next {head tail : List UInt8} : record head → Behind record breaks tail → Behind record breaks (head ++ tail)

/-- What a loop body does, in the states of the invariant. -/
structure Reads (thrown : ε → Prop) (body : σ → IStream → Except ε (σ × IStream)) (inv : σ → Prop)
    (record breaks : List UInt8 → Prop) : Prop where
  record_ne_nil : ∀ {bytes}, record bytes → bytes ≠ []
  breaks_ne_nil : ∀ {bytes}, breaks bytes → bytes ≠ []
  /-- A record is taken from the stream, whatever is behind it. -/
  reads : ∀ {x head}, inv x → record head → ∀ tail, ∃ x',
    body x (IStream.ofBytes (head ++ tail)) = .ok (x', IStream.ofBytes tail) ∧ inv x'
  not_halts : ∀ {x bytes}, inv x → breaks bytes → ¬ Halts thrown (body x (IStream.ofBytes bytes))
  /-- What is neither a record nor a breakdown is thrown, or exhausts the stream. -/
  cases : ∀ {x}, inv x → ∀ bytes, breaks bytes ∨ (∃ head tail, bytes = head ++ tail ∧ record head) ∨
    (∃ fault, body x (IStream.ofBytes bytes) = .error fault ∧ thrown fault) ∨
    ∃ x', body x (IStream.ofBytes bytes) = .ok (x', IStream.exhausted)
  stuck : ∀ {x s}, inv x → s.Stuck → ∃ x', body x s = .ok (x', s.fail) ∧ inv x'

variable {thrown : ε → Prop} {diverges : ε} {body : σ → IStream → Except ε (σ × IStream)} {inv : σ → Prop}
  {record breaks : List UInt8 → Prop}

namespace Reads

variable (h : Reads thrown body inv record breaks)
include h

theorem behind_ne_nil {bytes : List UInt8} (hbehind : Behind record breaks bytes) : bytes ≠ [] := by
  cases hbehind with
  | here hbreaks => exact h.breaks_ne_nil hbreaks
  | next hrecord _ => exact List.append_ne_nil_of_left_ne_nil (h.record_ne_nil hrecord) _

theorem readLoop_record (diverges : ε) {x : σ} (hx : inv x) {head : List UInt8} (hhead : record head)
    (fuel : Nat) (tail : List UInt8) : ∃ x', inv x' ∧
      readLoop diverges body (fuel + 1) x (IStream.ofBytes (head ++ tail))
        = readLoop diverges body fuel x' (IStream.ofBytes tail).peek := by
  obtain ⟨x', hbody, hx'⟩ := h.reads hx hhead tail
  refine ⟨x', hx', ?_⟩
  rw [readLoop, IStream.eof_ofBytes, if_neg Bool.false_ne_true, hbody]

variable (hdiverges : ¬ thrown diverges)
include hdiverges

theorem not_halts_stuck (fuel : Nat) {x : σ} (hx : inv x) {s : IStream} (hs : s.Stuck) :
    ¬ Halts thrown (readLoop diverges body fuel x s) := by
  induction fuel generalizing x s with
  | zero => exact hdiverges
  | succ fuel ih =>
    obtain ⟨x', hbody, hx'⟩ := h.stuck hx hs
    rw [readLoop, hs.2, if_neg Bool.false_ne_true, hbody]
    dsimp only
    rw [IStream.peek_of_not_good s.good_fail]
    exact ih hx' hs.fail.fail

theorem not_halts_behind {bytes : List UInt8} (hbehind : Behind record breaks bytes) (fuel : Nat) {x : σ}
    (hx : inv x) : ¬ Halts thrown (readLoop diverges body fuel x (IStream.ofBytes bytes)) := by
  induction hbehind generalizing fuel x with
  | here hbreaks =>
    cases fuel with
    | zero => exact hdiverges
    | succ fuel =>
      have hnot := h.not_halts hx hbreaks
      rw [readLoop, IStream.eof_ofBytes, if_neg Bool.false_ne_true]
      generalize body x (IStream.ofBytes _) = result at hnot
      cases result with
      | error fault => exact hnot
      | ok read => exact absurd trivial hnot
  | next hrecord htail ih =>
    cases fuel with
    | zero => exact hdiverges
    | succ fuel =>
      obtain ⟨x', hx', hloop⟩ := h.readLoop_record diverges hx hrecord fuel _
      rw [hloop, IStream.peek_ofBytes_of_ne_nil (h.behind_ne_nil htail)]
      exact ih fuel hx'

omit hdiverges in
/-- Every iteration takes a record or is the last, so one more than there are bytes are enough. -/
theorem halts_of_not_behind {bytes : List UInt8} (hbehind : ¬ Behind record breaks bytes) {fuel : Nat}
    (hfuel : bytes.length + 2 ≤ fuel) {x : σ} (hx : inv x) :
    Halts thrown (readLoop diverges body fuel x (IStream.ofBytes bytes)) := by
  induction fuel generalizing bytes x with
  | zero => omega
  | succ fuel ih =>
    obtain hbreaks | ⟨head, tail, rfl, hrecord⟩ | ⟨fault, hbody, hthrown⟩ | ⟨x', hbody⟩ := h.cases hx bytes
    · exact absurd (Behind.here hbreaks) hbehind
    · obtain ⟨x', hx', hloop⟩ := h.readLoop_record diverges hx hrecord fuel tail
      have hpos : 0 < head.length := List.length_pos_of_ne_nil (h.record_ne_nil hrecord)
      rw [List.length_append] at hfuel
      rw [hloop]
      by_cases htail : tail = []
      · -- the peek meets the end
        subst htail
        obtain ⟨fuel, rfl⟩ := Nat.exists_eq_add_of_le' (show 1 ≤ fuel by omega)
        rw [readLoop, IStream.eof_peek_ofBytes_nil, if_pos rfl]
        trivial
      · rw [IStream.peek_ofBytes_of_ne_nil htail]
        exact ih (fun htailBehind => hbehind (Behind.next hrecord htailBehind)) (by omega) hx'
    · rw [readLoop, IStream.eof_ofBytes, if_neg Bool.false_ne_true, hbody]
      exact hthrown
    · obtain ⟨fuel, rfl⟩ := Nat.exists_eq_add_of_le' (show 1 ≤ fuel by omega)
      rw [readLoop, IStream.eof_ofBytes, if_neg Bool.false_ne_true, hbody]
      dsimp only
      rw [readLoop, IStream.peek_exhausted, IStream.eof_exhausted, if_pos rfl]
      trivial

theorem readLoop_halts_iff {s : IStream} {fuel : Nat} (hfuel : s.rest.length + 2 ≤ fuel) {x : σ} (hx : inv x) :
    Halts thrown (readLoop diverges body fuel x s) ↔
      s.eof = true ∨ s.good = true ∧ ¬ Behind record breaks s.rest := by
  cases heof : s.eof with
  | true =>
    obtain ⟨fuel, rfl⟩ := Nat.exists_eq_add_of_le' (show 1 ≤ fuel by omega)
    rw [readLoop, heof, if_pos rfl]
    exact ⟨fun _ => Or.inl rfl, fun _ => trivial⟩
  | false =>
    cases hgood : s.good with
    | false =>
      have hnot := h.not_halts_stuck hdiverges fuel hx ⟨hgood, heof⟩
      simpa using hnot
    | true =>
      rw [IStream.eq_ofBytes hgood]
      constructor
      · intro hhalts
        exact Or.inr ⟨rfl, fun hbehind => h.not_halts_behind hdiverges hbehind fuel hx hhalts⟩
      · rintro (heof | ⟨-, hbehind⟩)
        · exact absurd heof Bool.false_ne_true
        · exact h.halts_of_not_behind hbehind hfuel hx

end Reads

end RecordLoop
