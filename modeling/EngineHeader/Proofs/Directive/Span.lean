import EngineHeader.Directive.Segment
import EngineHeader.Proofs.Text.OpenComment

/-!
# Spans of source text

A *span* is the source text of one segment.  What has been measured once as a span stays one
in other surroundings: with a line feed behind it, it may stand in front of any text, and
reading goes over both and is at the beginning of a line.  Neither does the span hide a
directive line that would come out there, nor does its end change what follows.

Reading goes over a span unit by unit.  `Over f x g y` says that it goes over `x` where `y`
follows.  For each kind of unit there is a lemma (`over_feed`, `over_blank`, `over_block`,
`over_line`, `over_char`), and `Over.append` puts them together.

There is one exception, a span that leaves a comment open.  It reaches to the end of the text,
and only the end may follow it (`outcome`).
-/

namespace EngineHeader.Directive

open Text

/-! ## Reading over a text -/

/-- Where `y` follows, reading source text goes over `x`.  `f` and `g` say whether only blanks
and comments stand between the beginning of the line and here, in front of `x` and behind. -/
structure Over (f : Bool) (x : List Char) (g : Bool) (y : List Char) : Prop where
  source : ∀ n, sourceFrom f n (x ++ y) = sourceFrom g (n + x.length) y
  comments : leavesOpen (x ++ y) = leavesOpen y

variable {f g h : Bool} {x y : List Char}

theorem Over.append {a b : List Char} (ha : Over f a g (b ++ y)) (hb : Over g b h y) :
    Over f (a ++ b) h y where
  source n := by
    rw [List.append_assoc, ha.source, hb.source, List.length_append, Nat.add_assoc]
  comments := by rw [List.append_assoc, ha.comments, hb.comments]

theorem over_feed (f : Bool) (y : List Char) : Over f ['\n'] true y where
  source n := by
    rw [List.singleton_append, sourceFrom, if_pos rfl]
    rfl
  comments := leavesOpen_cons_of_ne (by decide)

theorem over_blank {c : Char} (hc : isBlank c = true) (f : Bool) (y : List Char) :
    Over f [c] f y where
  source n := by
    have hfeed : c ≠ '\n' := by
      rintro rfl
      cases hc
    rw [List.singleton_append, sourceFrom, if_neg hfeed, if_pos hc]
    rfl
  comments := leavesOpen_cons (opens_of_isBlank hc y)

/-- A comment is read over as a whole, and does not count. -/
theorem sourceFrom_comment {x : List Char} (hlen : commentLength (x ++ y) = x.length)
    (hslash : ∃ inside, x = '/' :: inside) (f : Bool) (n : Nat) :
    sourceFrom f n (x ++ y) = sourceFrom f (n + x.length) y := by
  obtain ⟨inside, rfl⟩ := hslash
  have hblank : ¬ isBlank '/' = true := by decide
  rw [List.cons_append, sourceFrom, if_neg (by decide), if_neg hblank, ← List.cons_append, hlen,
    List.length_cons]
  dsimp only
  rw [List.drop_left]

theorem over_block (hx : blockComment? x = some x.length) (f : Bool) (y : List Char) :
    Over f x f y where
  source n := by
    have hwhole := blockComment_append hx y
    have hslash : ∃ inside, x = '/' :: inside := by
      obtain ⟨inside, _, heq, _⟩ := exists_of_blockComment hx
      exact ⟨_, heq⟩
    refine sourceFrom_comment ?_ hslash f n
    obtain ⟨inside, _, heq, _⟩ := exists_of_blockComment hwhole
    have ho : opensBlock (x ++ y) = true := by
      rw [heq]
      rfl
    rw [commentLength, if_pos ho, hwhole, Option.getD_some]
  comments := by
    have hdrop := leavesOpen_drop_blockComment (blockComment_append hx y)
    rwa [List.drop_left, eq_comm] at hdrop

/-- A line comment is read over where the line ends behind it. -/
theorem over_line (hx : opensLine x = true) (hfeed : '\n' ∉ x)
    (hy : y = [] ∨ ∃ rest, y = '\n' :: rest) (f : Bool) : Over f x f y := by
  obtain ⟨inside, rfl⟩ := eq_of_opensLine hx
  have hopens : opensLine ('/' :: '/' :: inside ++ y) = true := rfl
  have hlen := lineLength_append hfeed hy
  constructor
  · intro n
    refine sourceFrom_comment ?_ ⟨_, rfl⟩ f n
    have hblock : opensBlock ('/' :: '/' :: inside ++ y) = false := rfl
    rw [commentLength, hblock, if_neg Bool.false_ne_true, if_pos hopens, hlen]
  · have hdrop := leavesOpen_drop_lineLength hopens
    rwa [hlen, List.drop_left, eq_comm] at hdrop

/-- A character that opens no comment and begins no directive line. -/
theorem over_char {c : Char} (hfeed : c ≠ '\n') (hblank : ¬ isBlank c = true)
    (hopens : opensBlock (c :: y) = false ∧ opensLine (c :: y) = false)
    (hhash : ¬ (f && c = '#') = true) : Over f [c] false y where
  source n := by
    have hlen : commentLength (c :: y) = 0 := by
      rw [commentLength, hopens.1, hopens.2, if_neg Bool.false_ne_true, if_neg Bool.false_ne_true]
    rw [List.singleton_append, sourceFrom, if_neg hfeed, if_neg hblank, hlen]
    dsimp only
    rw [if_neg hhash]
    rfl
  comments := leavesOpen_cons hopens

/-! ## What becomes of a span -/

/-- What becomes of the first `k` characters of a text, if they are a span.  They may stand in
front of anything, with a line feed between, or they leave a comment open and are the whole
text. -/
inductive Outcome (f : Bool) (text : List Char) (k : Nat) : Prop where
  | closed : leavesOpen (text.drop k) = leavesOpen text →
    (∀ y, Over f (text.take k ++ ['\n']) true y) → Outcome f text k
  | leftOpen : leavesOpen text = true → text.drop k = [] →
    (∀ n, sourceFrom f n (text.take k ++ ['\n']) = n + (text.take k ++ ['\n']).length) →
    Outcome f text k

/-- A unit in front of a span is part of it. -/
theorem Outcome.behind {text : List Char} {k : Nat} (h : Outcome g text k)
    (hx : Over f x g text) (hcut : ∀ y, Over f x g (text.take k ++ '\n' :: y)) :
    Outcome f (x ++ text) (x.length + k) := by
  have htake : (x ++ text).take (x.length + k) = x ++ text.take k := List.take_length_add_append k
  have hdrop : (x ++ text).drop (x.length + k) = text.drop k := List.drop_length_add_append k
  cases h with
  | closed hcomments hover =>
    refine .closed ?_ fun y => ?_
    · rw [hdrop, hcomments, hx.comments]
    · rw [htake, List.append_assoc]
      refine Over.append ?_ (hover y)
      rw [List.append_assoc]
      exact hcut y
  | leftOpen hopen hnil hsource =>
    refine .leftOpen ?_ ?_ fun n => ?_
    · rw [hx.comments, hopen]
    · rw [hdrop, hnil]
    · have hlen : (x ++ (text.take k ++ ['\n'])).length =
          x.length + (text.take k ++ ['\n']).length := List.length_append
      rw [htake, List.append_assoc, (hcut []).source, hsource, hlen, Nat.add_assoc]

/-- A comment that does not close is the rest of the text. -/
theorem outcome_unclosed {text : List Char} (ho : opensBlock text = true)
    (hn : blockComment? text = none) (f : Bool) : Outcome f text text.length := by
  refine .leftOpen (leavesOpen_of_unclosed ho hn) List.drop_length fun n => ?_
  rw [List.take_length]
  have hfeed := blockComment_append_feed ho hn
  obtain ⟨inside, rfl⟩ := eq_of_opensBlock ho
  have ho' : opensBlock ('/' :: '*' :: inside ++ ['\n']) = true := rfl
  have hlen : commentLength ('/' :: '*' :: inside ++ ['\n'] ++ []) =
      ('/' :: '*' :: inside ++ ['\n']).length := by
    rw [List.append_nil, commentLength, if_pos ho', hfeed, Option.getD_none]
  have hread := sourceFrom_comment hlen ⟨_, rfl⟩ f n
  rwa [List.append_nil, sourceFrom] at hread

/-- If no comment opens in front of a text, then none does if the text is cut and a line ends
there. -/
theorem opens_cut {c : Char} {text : List Char}
    (h : opensBlock (c :: text) = false ∧ opensLine (c :: text) = false) (k : Nat)
    (y : List Char) : opensBlock (c :: (text.take k ++ '\n' :: y)) = false ∧
      opensLine (c :: (text.take k ++ '\n' :: y)) = false := by
  by_cases hc : c = '/'
  · subst hc
    cases text with
    | nil =>
      rw [List.take_nil]
      exact ⟨rfl, rfl⟩
    | cons x text =>
      cases k with
      | zero => exact ⟨rfl, rfl⟩
      | succ k => exact opens_of_slash h _
  · exact opens_of_ne hc _

/-- A comment in front of a span is part of it. -/
theorem Outcome.behind_comment {text : List Char} {k : Nat} (hpos : 0 < commentLength text)
    (h : Outcome f (text.drop (commentLength text)) k)
    (hk : text.drop (commentLength text) = [] → k = 0) :
    Outcome f text (commentLength text + k) := by
  rcases commentLength_cases hpos with hclosed | ⟨hl, hlen⟩ | ⟨ho, hn, hlen⟩
  · generalize commentLength text = n at hclosed h
    have hblock := blockComment_take hclosed
    have hbehind := h.behind (over_block hblock f _) fun y => over_block hblock f _
    rwa [List.take_append_drop, length_take_blockComment hclosed] at hbehind
  · rw [hlen] at h ⊢
    obtain ⟨hopens, hfeed⟩ := opensLine_take hl
    have hcut (y : List Char) : (text.drop (lineLength text)).take k ++ '\n' :: y = [] ∨
        ∃ rest, (text.drop (lineLength text)).take k ++ '\n' :: y = '\n' :: rest := by
      rcases drop_lineLength text with hend | ⟨rest, hend⟩
      · rw [hend, List.take_nil]
        exact .inr ⟨y, rfl⟩
      · rw [hend]
        cases k with
        | zero => exact .inr ⟨y, rfl⟩
        | succ k => exact .inr ⟨_, rfl⟩
    have hbehind := h.behind (over_line hopens hfeed (drop_lineLength text) f) fun y =>
      over_line hopens hfeed (hcut y) f
    rwa [List.take_append_drop, length_take_lineLength] at hbehind
  · have hnil : text.drop (commentLength text) = [] := by rw [hlen, List.drop_length]
    rw [hk hnil, hlen]
    exact outcome_unclosed ho hn f

/-- A span stays one if it is cut out, or it leaves a comment open. -/
theorem outcome {n k : Nat} {text : List Char} (hk : sourceFrom f n text = n + k) :
    Outcome f text k := by
  fun_induction sourceFrom f n text generalizing k with
  | case1 f n =>
    obtain rfl : k = 0 := by omega
    exact .closed rfl (over_feed f)
  | case2 f n text ih =>
    have := sourceFrom_ge true (n + 1) text
    obtain ⟨k, rfl⟩ : ∃ j, k = 1 + j := ⟨k - 1, by omega⟩
    exact (ih (by omega)).behind (over_feed f _) fun y => over_feed f _
  | case3 f n c text hc hblank ih =>
    have := sourceFrom_ge f (n + 1) text
    obtain ⟨k, rfl⟩ : ∃ j, k = 1 + j := ⟨k - 1, by omega⟩
    exact (ih (by omega)).behind (over_blank hblank f _) fun y => over_blank hblank f _
  | case4 f n c text hc hblank j hj ih =>
    have := sourceFrom_ge f (n + (j + 1)) (text.drop j)
    obtain ⟨k, rfl⟩ : ∃ i, k = j + 1 + i := ⟨k - (j + 1), by omega⟩
    replace hj : commentLength (c :: text) = j + 1 := hj
    have hpos : 0 < commentLength (c :: text) := hj ▸ Nat.succ_pos j
    have hdrop : (c :: text).drop (commentLength (c :: text)) = text.drop j := by
      rw [hj, List.drop_succ_cons]
    have hzero (hnil : text.drop j = []) : k = 0 := by
      rw [hnil, sourceFrom] at hk
      omega
    rw [← hj]
    exact .behind_comment hpos (hdrop ▸ ih (by omega)) (hdrop ▸ hzero)
  | case5 f n c text hc hblank hz hhash =>
    obtain rfl : k = 0 := by omega
    exact .closed rfl (over_feed f)
  | case6 f n c text hc hblank hz hhash ih =>
    have := sourceFrom_ge false (n + 1) text
    obtain ⟨k, rfl⟩ : ∃ j, k = 1 + j := ⟨k - 1, by omega⟩
    have hopens := opens_of_commentLength (List.cons_ne_nil _ _) hz
    exact (ih (by omega)).behind (over_char hc hblank hopens hhash) fun y =>
      over_char hc hblank (opens_cut hopens k y) hhash

/-! ## Where a span begins -/

/-- Source text begins here, at a character that is neither white space nor a number sign and
opens no comment. -/
def Begins (text : List Char) : Prop :=
  ∃ c rest, text = c :: rest ∧ isLayout c = false ∧ c ≠ '#' ∧
    opensBlock text = false ∧ opensLine text = false

/-- Where source text begins, it does not matter whether a directive line could begin. -/
theorem Begins.sourceFrom_true {text : List Char} (h : Begins text) (n : Nat) :
    sourceFrom true n text = sourceFrom false n text := by
  obtain ⟨c, rest, rfl, hlayout, hhash, hb, hl⟩ := h
  obtain ⟨hblank, hfeed⟩ : ¬ isBlank c = true ∧ c ≠ '\n' := by simpa [isLayout] using hlayout
  have htrue : ¬ (true && c = '#') = true := by simpa using hhash
  have hfalse : ¬ (false && c = '#') = true := by simp
  exact ((over_char hfeed hblank ⟨hb, hl⟩ htrue).source n).trans
    ((over_char hfeed hblank ⟨hb, hl⟩ hfalse).source n).symm

/-- If some of it is cut out and a line feed put behind it, then source text begins there. -/
theorem Begins.cut {text : List Char} {k : Nat} (h : Begins text) (hk : 0 < k) (y : List Char) :
    Begins (text.take k ++ '\n' :: y) := by
  obtain ⟨k, rfl⟩ := Nat.exists_eq_add_one.mpr hk
  obtain ⟨c, rest, rfl, hlayout, hhash, hopens⟩ := h
  rw [List.take_succ_cons, List.cons_append]
  exact ⟨c, _, rfl, hlayout, hhash, opens_cut hopens k y⟩

/-- A span that may stand in front of any text, with a line feed between. -/
structure ClosedSpan (x : List Char) : Prop where
  begins : ∀ y, Begins (x ++ '\n' :: y)
  goesOver : ∀ y, Over true (x ++ ['\n']) true y

/-- A span that leaves a comment open.  A line feed behind it is in the comment. -/
structure OpenSpan (x : List Char) : Prop where
  begins : Begins (x ++ ['\n'])
  source : ∀ n, sourceFrom true n (x ++ ['\n']) = n + (x ++ ['\n']).length
  comments : leavesOpen (x ++ ['\n']) = true

/-- The source text at the head of a text is a closed span, or it leaves a comment open and is
all of the text. -/
theorem Begins.span {text : List Char} (h : Begins text) :
    ClosedSpan (text.take (sourceLength text)) ∧
        leavesOpen (text.drop (sourceLength text)) = leavesOpen text ∨
      OpenSpan (text.take (sourceLength text)) ∧ text.drop (sourceLength text) = [] := by
  have hne : text ≠ [] := by
    rintro rfl
    obtain ⟨_, _, heq, _⟩ := h
    cases heq
  have hcut := h.cut (sourceLength_pos hne)
  have hread : sourceFrom true 0 text = 0 + sourceLength text := by
    rw [h.sourceFrom_true, Nat.zero_add]
    rfl
  cases outcome hread with
  | closed hcomments hover => exact .inl ⟨⟨hcut, hover⟩, hcomments⟩
  | leftOpen hopen hnil hsource =>
    have hall : text.take (sourceLength text) = text :=
      List.take_of_length_le (List.drop_eq_nil_iff.mp hnil)
    refine .inr ⟨⟨hcut [], hsource, ?_⟩, hnil⟩
    rw [leavesOpen_append_feed, hall, hopen]

end EngineHeader.Directive
