import Daybook.Proofs.Text.Spans
import Daybook.Proofs.Text.Words

/-!
# Blanked texts

Blanking some parts of a text takes out the characters that stand in them, and puts in one
space for each row of parts that overlap. As far as words are concerned, each of these
characters might as well be replaced by a space of its own.
-/

namespace Daybook.Text

variable {cs front part back : List Char} {spans : List Span} {span : Span} {offset : Nat}

/-- The span is that of a part of the text. -/
def Span.StandsIn (span : Span) (cs : List Char) : Prop :=
  ∃ front part back, cs = front ++ part ++ back ∧ part ≠ [] ∧
    span.start = byteLength front ∧ span.stop = byteLength (front ++ part)

/-- A span of a text is not empty. -/
theorem Span.StandsIn.lt (h : span.StandsIn cs) : span.start < span.stop := by
  obtain ⟨front, part, back, rfl, hne, hstart, hstop⟩ := h
  have hpart := mt byteLength_eq_zero.mp hne
  rw [byteLength_append] at hstop
  omega

/-- A part that begins before the end of a character begins before the character. -/
theorem byteLength_le_of_lt {c : Char} {before after : List Char}
    (h : front ++ c :: back = before ++ after)
    (hlt : byteLength before < byteLength front + c.utf8Size) :
    byteLength before ≤ byteLength front := by
  by_contra hbeyond
  obtain ⟨between, rfl, hback⟩ := exists_of_byteLength_le h (Nat.le_of_not_le hbeyond)
  cases between with
  | nil => simp at hbeyond
  | cons d between =>
    obtain ⟨rfl, rfl⟩ := List.cons.inj hback
    simp only [byteLength_append, byteLength_cons] at hlt
    omega

/-- Whether a position lies in one of some spans. -/
def isCovered (spans : List Span) (n : Nat) : Bool :=
  spans.any fun span => span.start ≤ n && n < span.stop

/-- Whether a row of overlapping spans begins at a position: a span begins there, and none
that begins before goes on. -/
def isOpened (spans : List Span) (n : Nat) : Bool :=
  spans.any (·.start == n) && !spans.any fun span => span.start < n && n < span.stop

/-- A position is covered if one of the spans goes on there. -/
theorem isCovered_eq_true_iff {n : Nat} :
    isCovered spans n = true ↔ ∃ span ∈ spans, span.start ≤ n ∧ n < span.stop := by
  simp [isCovered]

/-- A position is not covered if every span that has begun has ended. -/
theorem isCovered_eq_false_iff {n : Nat} :
    isCovered spans n = false ↔ ∀ span ∈ spans, span.start ≤ n → span.stop ≤ n := by
  simp [isCovered]

/-- Spans are opened where they do not go on from before. -/
theorem isOpened_eq_true_iff {n : Nat} :
    isOpened spans n = true ↔ (∃ span ∈ spans, span.start = n) ∧
      ∀ span ∈ spans, span.start < n → span.stop ≤ n := by
  simp [isOpened]

/-- The text from position `offset` on, without the characters in the spans, and with a space
for each row of overlapping spans. -/
def blanked (spans : List Span) (offset : Nat) : List Char → List Char
  | [] => []
  | c :: cs =>
    let rest := blanked spans (offset + c.utf8Size) cs
    if isCovered spans offset then (if isOpened spans offset then ' ' :: rest else rest)
    else c :: rest

/-- Without spans nothing is blanked. -/
@[simp] theorem blanked_none (offset : Nat) (cs : List Char) : blanked [] offset cs = cs := by
  induction cs generalizing offset with
  | nil => rfl
  | cons c cs ih => simp [blanked, isCovered, ih]

/-- What is blanked depends on what is covered and opened from the position on. -/
theorem blanked_congr {spans' : List Span}
    (h : ∀ n, offset ≤ n → isCovered spans n = isCovered spans' n ∧
      isOpened spans n = isOpened spans' n) :
    blanked spans offset cs = blanked spans' offset cs := by
  induction cs generalizing offset with
  | nil => rfl
  | cons c cs ih =>
    obtain ⟨hcovered, hopened⟩ := h offset (Nat.le_refl _)
    simp only [blanked, hcovered, hopened, ih fun n hn => h n (Nat.le_of_add_right_le hn)]

/-- A span that ends before the text plays no part. -/
theorem blanked_cons_of_le (hspan : span.start < span.stop) (hle : span.stop ≤ offset) :
    blanked (span :: spans) offset cs = blanked spans offset cs := by
  refine blanked_congr fun n hn => ?_
  have hcovered : (span.start ≤ n && n < span.stop) = false := by simp; omega
  have hstart : (span.start == n) = false := by simp; omega
  have hcrossed : (span.start < n && n < span.stop) = false := by simp; omega
  simp only [isCovered, isOpened, List.any_cons, hcovered, hstart, hcrossed, Bool.false_or,
    and_self]

/-- A part that no span covers stays. -/
theorem blanked_append_of_not_covered
    (h : ∀ n, offset ≤ n → n < offset + byteLength part → isCovered spans n = false) :
    blanked spans offset (part ++ back) =
      part ++ blanked spans (offset + byteLength part) back := by
  induction part generalizing offset with
  | nil => rfl
  | cons c part ih =>
    have hfirst := h offset (Nat.le_refl _) (Nat.lt_add_of_pos_right byteLength_pos)
    have hrest : blanked spans (offset + c.utf8Size) (part ++ back) = _ :=
      ih fun n hn hlt => h n (by omega) (by rw [byteLength_cons]; omega)
    simp only [List.cons_append, blanked, hfirst, Bool.false_eq_true, if_false, hrest,
      byteLength_cons, Nat.add_assoc]

/-- A part goes where a span covers it that is opened before. -/
theorem blanked_append_of_covered
    (h : ∀ n, offset ≤ n → n < offset + byteLength part → isCovered spans n = true ∧
      isOpened spans n = false) :
    blanked spans offset (part ++ back) = blanked spans (offset + byteLength part) back := by
  induction part generalizing offset with
  | nil => rfl
  | cons c part ih =>
    obtain ⟨hcovered, hopened⟩ := h offset (Nat.le_refl _) (Nat.lt_add_of_pos_right byteLength_pos)
    have hrest : blanked spans (offset + c.utf8Size) (part ++ back) = _ :=
      ih fun n hn hlt => h n (by omega) (by rw [byteLength_cons]; omega)
    simp only [List.cons_append, blanked, hcovered, hopened, Bool.false_eq_true, if_true, if_false,
      hrest, byteLength_cons, Nat.add_assoc]

/-- Behind the beginning of the first span, the text is gone up to its end. -/
theorem blanked_cons_append (hspan : span.start < span.stop) (hstart : span.start < offset)
    (hstop : span.stop = offset + byteLength part) :
    blanked (span :: spans) offset (part ++ back) = blanked spans span.stop back := by
  rw [blanked_append_of_covered, ← hstop, blanked_cons_of_le hspan (Nat.le_refl _)]
  intro n hn hlt
  have hcovered : span.start ≤ n ∧ n < span.stop := by omega
  have hcrossed : span.start < n ∧ n < span.stop := by omega
  simp [isCovered, isOpened, hcovered, hcrossed]

/-- The first span leaves what stands before it, and a space. -/
theorem blanked_append_cons (hspan : span.start < span.stop)
    (hfirst : ∀ other ∈ spans, span.start ≤ other.start)
    (hstart : span.start = offset + byteLength front)
    (hstop : span.stop = span.start + byteLength part) :
    blanked (span :: spans) offset (front ++ (part ++ back)) =
      front ++ ' ' :: blanked spans span.stop back := by
  have hfirst : ∀ other ∈ span :: spans, span.start ≤ other.start :=
    List.forall_mem_cons.mpr ⟨Nat.le_refl _, hfirst⟩
  rw [blanked_append_of_not_covered, ← hstart]
  · cases part with
    | nil => simp at hstop; omega
    | cons c part =>
      have hcovered : isCovered (span :: spans) span.start = true :=
        isCovered_eq_true_iff.mpr ⟨span, List.mem_cons_self, Nat.le_refl _, hspan⟩
      have hopened : isOpened (span :: spans) span.start = true :=
        isOpened_eq_true_iff.mpr ⟨⟨span, List.mem_cons_self, rfl⟩, fun other hother hlt =>
          absurd (hfirst other hother) (Nat.not_le_of_lt hlt)⟩
      have hpos := Char.utf8Size_pos c
      rw [byteLength_cons] at hstop
      simp only [List.cons_append, blanked, hcovered, hopened, if_true]
      rw [blanked_cons_append hspan (by omega) (by omega)]
  · intro n hn hlt
    rw [isCovered_eq_false_iff]
    intro other hother hle
    have := hfirst other hother
    omega

/-- Blanking from a position on, where the spans come in the order of their starts. -/
theorem blankFrom_eq (front : List Char) (hcs : cs = front ++ back)
    (hsorted : spans.Pairwise fun a b => a.start ≤ b.start)
    (hspans : ∀ span ∈ spans, span.StandsIn cs) :
    blankFrom cs (byteLength front) spans = .ok (blanked spans (byteLength front) back) := by
  induction spans generalizing front back with
  | nil =>
    rw [blankFrom, hcs, dropBytes_byteLength, blanked_none]
  | cons span spans ih =>
    obtain ⟨hfirst, hsortedRest⟩ := List.pairwise_cons.mp hsorted
    obtain ⟨hspan, hspansRest⟩ := List.forall_mem_cons.mp hspans
    have hlt := hspan.lt
    obtain ⟨before, part, after, hcs', -, hstart, hstop⟩ := hspan
    have hafter : blankFrom cs span.stop spans = .ok (blanked spans span.stop after) := by
      rw [hstop]
      exact ih _ hcs' hsortedRest hspansRest
    unfold blankFrom
    split
    · rename_i hpast
      rw [blanked_cons_of_le hlt hpast]
      exact ih front hcs hsortedRest hspansRest
    · rename_i hahead
      split
      · rename_i hinside
        obtain ⟨covered, hcovered, rfl⟩ := exists_of_byteLength_le (hcs.symm.trans hcs')
          (by rw [← hstop]; omega)
        rw [blanked_cons_append hlt hinside (by rw [hstop, hcovered, byteLength_append]), hafter]
      · rename_i hbeyond
        obtain ⟨kept, rfl, hback⟩ := exists_of_byteLength_le
          (hcs.symm.trans (hcs'.trans (List.append_assoc _ _ _))) (by omega)
        rw [byteLength_append] at hstart
        rw [byteLength_append, byteLength_append, ← hstart] at hstop
        rw [hback, blanked_append_cons hlt hfirst hstart hstop, hcs, hback, hstart,
          slice_byteLength, ← hback, ← hcs, hafter]
        rfl

/-- The order of the spans makes no difference. -/
theorem blanked_perm {spans' : List Span} (h : spans.Perm spans') :
    blanked spans offset cs = blanked spans' offset cs :=
  blanked_congr fun n _ => by simp only [isCovered, isOpened, h.any_eq, and_self]

/-- Sorted spans come in the order of their starts. -/
theorem pairwise_mergeSort_le (spans : List Span) :
    (spans.mergeSort Span.le).Pairwise fun a b => a.start ≤ b.start := by
  have hsorted : (spans.mergeSort Span.le).Pairwise fun a b => Span.le a b :=
    List.pairwise_mergeSort (fun a b c => by simp only [Span.le]; grind)
      (fun a b => by simp only [Span.le]; grind) spans
  refine hsorted.imp fun hle => ?_
  simp only [Span.le, Bool.or_eq_true, decide_eq_true_eq, Bool.and_eq_true, beq_iff_eq] at hle
  omega

/-- Blanking spans that stand in the text meets no fault, and what is left is known for each
character. -/
theorem blankSpans_eq (h : ∀ span ∈ spans, span.StandsIn cs) :
    blankSpans cs spans = .ok (blanked spans 0 cs) := by
  have hperm := List.mergeSort_perm spans Span.le
  rw [← blanked_perm hperm]
  exact blankFrom_eq [] rfl (pairwise_mergeSort_le spans) fun span hspan =>
    h span (hperm.mem_iff.mp hspan)

/-- The text from position `offset` on, with a space in place of each character in a span. -/
def masked (spans : List Span) (offset : Nat) : List Char → List Char
  | [] => []
  | c :: cs =>
    (if isCovered spans offset then ' ' else c) :: masked spans (offset + c.utf8Size) cs

/-- Without spans nothing is masked. -/
@[simp] theorem masked_none (offset : Nat) (cs : List Char) : masked [] offset cs = cs := by
  induction cs generalizing offset with
  | nil => rfl
  | cons c cs ih => simp [masked, isCovered, ih]

/-- The two parts of a text are masked one by one. -/
theorem masked_append (spans : List Span) (offset : Nat) (front back : List Char) :
    masked spans offset (front ++ back) =
      masked spans offset front ++ masked spans (offset + byteLength front) back := by
  induction front generalizing offset with
  | nil => rfl
  | cons c front ih => simp [masked, ih, Nat.add_assoc]

/-- A span that begins before the end of a character that it does not cover ends before. -/
theorem stop_le_of_not_covered {c : Char} (hspans : ∀ span ∈ spans, span.StandsIn cs)
    (hcs : cs = front ++ c :: back) (hc : isCovered spans (byteLength front) = false) :
    ∀ span ∈ spans, span.start < byteLength (front ++ [c]) → span.stop ≤ byteLength front := by
  intro span hspan hlt
  obtain ⟨before, part, after, hcs', -, hstart, -⟩ := hspans span hspan
  have hsplit : front ++ c :: back = before ++ (part ++ after) := by
    rw [← hcs, hcs', List.append_assoc]
  have hle := byteLength_le_of_lt hsplit (by simpa [hstart] using hlt)
  exact isCovered_eq_false_iff.mp hc span hspan (hstart ▸ hle)

/-- Behind a character that is not covered, a span that covers the next position begins. -/
theorem isOpened_of_isCovered {c : Char} (hspans : ∀ span ∈ spans, span.StandsIn cs)
    (hcs : cs = front ++ c :: back) (hc : isCovered spans (byteLength front) = false)
    (hnext : isCovered spans (byteLength (front ++ [c])) = true) :
    isOpened spans (byteLength (front ++ [c])) = true := by
  have hbefore := stop_le_of_not_covered hspans hcs hc
  have hle : byteLength front ≤ byteLength (front ++ [c]) := by simp
  obtain ⟨span, hspan, hstart, hstop⟩ := isCovered_eq_true_iff.mp hnext
  have hbegins : span.start = byteLength (front ++ [c]) := by
    by_contra hne
    have := hbefore span hspan (by omega)
    omega
  exact isOpened_eq_true_iff.mpr ⟨⟨span, hspan, hbegins⟩, fun other hother hlt =>
    Nat.le_trans (hbefore other hother hlt) hle⟩

/-- Behind any beginning, the words do not tell a blanked text from a masked one. -/
theorem words_append_blanked (hspans : ∀ span ∈ spans, span.StandsIn cs) (front : List Char)
    (hcs : cs = front ++ back) (left : List Char)
    (hleft : isCovered spans (byteLength front) = true →
      isOpened spans (byteLength front) = false → seen left.getLast? = none) :
    words (left ++ blanked spans (byteLength front) back) =
      words (left ++ masked spans (byteLength front) back) := by
  induction back generalizing front left with
  | nil => rfl
  | cons c back ih =>
    have hlength : byteLength front + c.utf8Size = byteLength (front ++ [c]) := by simp
    have hrest := ih (front ++ [c]) (by simp [hcs])
    simp only [blanked, masked, hlength]
    by_cases hcovered : isCovered spans (byteLength front) = true
    · by_cases hopened : isOpened spans (byteLength front) = true
      · simp only [hcovered, hopened, if_true]
        simpa using hrest (left ++ [' ']) fun _ _ => by
          rw [List.getLast?_concat, seen_blank rfl]
      · rw [Bool.not_eq_true] at hopened
        simp only [hcovered, hopened, if_true, Bool.false_eq_true, if_false]
        rw [words_append_cons_of_seen rfl (hleft hcovered hopened)]
        exact hrest left fun _ _ => hleft hcovered hopened
    · rw [Bool.not_eq_true] at hcovered
      have hkept := hrest (left ++ [c]) fun hnext hopened => by
        rw [isOpened_of_isCovered hspans hcs hcovered hnext] at hopened
        cases hopened
      simpa only [hcovered, Bool.false_eq_true, if_false, List.append_assoc,
        List.singleton_append] using hkept

/-- A blanked text has the words of the text with its spans masked. -/
theorem words_blanked (h : ∀ span ∈ spans, span.StandsIn cs) :
    words (blanked spans 0 cs) = words (masked spans 0 cs) :=
  words_append_blanked h [] rfl [] fun _ _ => rfl

/-- Collapsing the blanked text is collapsing the masked one. -/
theorem collapse_blanked (h : ∀ span ∈ spans, span.StandsIn cs) :
    collapse (blanked spans 0 cs) = collapse (masked spans 0 cs) := by
  rw [collapse, words_blanked h, collapse]

/-- The parts of a masked text are masked parts of the text. -/
theorem masked_eq_append {left right : List Char} (h : masked spans offset cs = left ++ right) :
    ∃ front back, cs = front ++ back ∧ masked spans offset front = left ∧
      masked spans (offset + byteLength front) back = right := by
  induction left generalizing offset cs with
  | nil => exact ⟨[], cs, rfl, rfl, h⟩
  | cons d left ih =>
    cases cs with
    | nil => cases h
    | cons c cs =>
      obtain ⟨hc, hcs⟩ := List.cons.inj h
      obtain ⟨front, back, rfl, hfront, hback⟩ := ih hcs
      refine ⟨c :: front, back, rfl, by rw [masked, hc, hfront], ?_⟩
      rw [byteLength_cons, ← Nat.add_assoc]
      exact hback

/-- Where no blank is left, nothing was covered. -/
theorem not_covered_of_masked (h : ∀ c ∈ masked spans offset cs, isBlank c = false) :
    masked spans offset cs = cs ∧ ∀ front c back, cs = front ++ c :: back →
      isCovered spans (offset + byteLength front) = false := by
  induction cs generalizing offset with
  | nil => exact ⟨rfl, fun front c back hnil => by simp at hnil⟩
  | cons d cs ih =>
    obtain ⟨hd, hcs⟩ := List.forall_mem_cons.mp h
    have hkept : isCovered spans offset = false := by
      by_contra hcovered
      rw [Bool.not_eq_false] at hcovered
      rw [hcovered, if_pos rfl] at hd
      cases hd
    obtain ⟨heq, hrest⟩ := ih hcs
    refine ⟨by rw [masked, heq, hkept]; rfl, fun front c back hsplit => ?_⟩
    cases front with
    | nil => exact hkept
    | cons e front =>
      obtain ⟨rfl, hsplitRest⟩ := List.cons.inj hsplit
      rw [byteLength_cons, ← Nat.add_assoc]
      exact hrest front c back hsplitRest

/-- A part without blanks that is left stood in the text, and no span covers it. The
characters that are seen beside it were beside it, unless a span covers those. -/
theorem stands_of_collapse_masked {left right : List Char} (hpart : IsWord part)
    (h : collapse (masked spans 0 cs) = left ++ part ++ right) :
    ∃ front back, cs = front ++ part ++ back ∧
      (∀ f c b, part = f ++ c :: b → isCovered spans (byteLength (front ++ f)) = false) ∧
      (∀ f c, front = f ++ [c] →
        seen (some c) = seen left.getLast? ∨ isCovered spans (byteLength f) = true) ∧
      ∀ c b, back = c :: b →
        seen (some c) = seen right.head? ∨ isCovered spans (byteLength (front ++ part)) = true := by
  obtain ⟨left', right', hmasked, hleft, hright⟩ := stands_of_collapse hpart h
  obtain ⟨before, back, rfl, hbefore, hback⟩ := masked_eq_append hmasked
  obtain ⟨front, part', rfl, hfront, hpart'⟩ := masked_eq_append hbefore
  rw [Nat.zero_add] at hback hpart'
  have hblank : ∀ c ∈ masked spans (byteLength front) part', isBlank c = false :=
    hpart' ▸ hpart.not_blank
  obtain ⟨heq, hkept⟩ := not_covered_of_masked hblank
  obtain rfl : part' = part := heq.symm.trans hpart'
  refine ⟨front, back, rfl, fun f c b hsplit => ?_, ?_, ?_⟩
  · rw [byteLength_append]
    exact hkept f c b hsplit
  · rintro f c rfl
    cases hcovered : isCovered spans (byteLength f) with
    | true => exact .inr rfl
    | false =>
      rw [masked_append, Nat.zero_add, masked, hcovered] at hfront
      rw [← hleft, ← hfront]
      simp [masked]
  · rintro c b rfl
    cases hcovered : isCovered spans (byteLength (front ++ part')) with
    | true => exact .inr rfl
    | false =>
      rw [masked, hcovered] at hback
      rw [← hright, ← hback]
      simp

/-- The span that covers the last character before a part that is not covered ends there. -/
theorem exists_stop_eq {c : Char} (hspans : ∀ span ∈ spans, span.StandsIn cs)
    (hcs : cs = front ++ c :: back) (hc : isCovered spans (byteLength front) = true)
    (hnext : isCovered spans (byteLength (front ++ [c])) = false) :
    ∃ span ∈ spans, span.stop = byteLength (front ++ [c]) := by
  obtain ⟨span, hspan, hstart, hstop⟩ := isCovered_eq_true_iff.mp hc
  refine ⟨span, hspan, Nat.le_antisymm ?_ ?_⟩
  · exact isCovered_eq_false_iff.mp hnext span hspan (Nat.le_trans hstart (by simp))
  · obtain ⟨before, covered, after, hcs', -, -, hend⟩ := hspans span hspan
    by_contra hbefore
    rw [hend] at hstop hbefore
    have := byteLength_le_of_lt (hcs.symm.trans hcs') (by simpa using hbefore)
    omega

/-- Masking brings no characters that are not blank. -/
theorem countP_masked_le (spans : List Span) (offset : Nat) (cs : List Char) :
    (masked spans offset cs).countP (!isBlank ·) ≤ cs.countP (!isBlank ·) := by
  induction cs generalizing offset with
  | nil => exact Nat.le_refl _
  | cons c cs ih =>
    have hrest := ih (offset + c.utf8Size)
    have hspace : (!isBlank ' ') = false := rfl
    simp only [masked, List.countP_cons]
    cases isCovered spans offset
    · simpa using hrest
    · simp only [if_true, hspace, Bool.false_eq_true, if_false]
      omega

/-- Masking takes away characters that are not blank, where a span covers one. -/
theorem countP_masked_lt {c : Char} (hcs : cs = front ++ c :: back) (hc : isBlank c = false)
    (hcovered : isCovered spans (byteLength front) = true) :
    (masked spans 0 cs).countP (!isBlank ·) < cs.countP (!isBlank ·) := by
  have hfront := countP_masked_le spans 0 front
  have hback := countP_masked_le spans (byteLength front + c.utf8Size) back
  have hspace : (!isBlank ' ') = false := rfl
  rw [hcs, masked_append, Nat.zero_add, masked, hcovered, if_pos rfl]
  simp only [List.countP_append, List.countP_cons, hspace, hc, Bool.not_false, if_true,
    Bool.false_eq_true, if_false]
  omega

end Daybook.Text
