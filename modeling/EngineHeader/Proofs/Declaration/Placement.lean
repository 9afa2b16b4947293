import EngineHeader.Proofs.Declaration.Soundness

/-!
# Where the comments of a header belong

The grammar of declarations does not see comments.  Here the same is said of all tokens of a
header, with the comments, and it is said which of them are kept and where.

* Between declarations each comment is an entry of its own (`HeaderAt.comment`).
* A declaration goes from its `typedef` through its semicolon (`DeclarationAt`).
* In a structure, a function pointer keeps the comment right behind the parenthesis that closes
  its arguments.  If there is none, it keeps the comment right behind its semicolon, provided
  that this begins on the line of the semicolon (`Keeps`).
* All other comments inside of declarations are lost.

Which comment a field keeps may depend on what stands behind it, so the relations for fields say
what tokens are where others stand behind them.

So what is kept are comments of the header, each at most once and in order
(`HeaderAt.sublist`).  A comment behind a semicolon is in front of the next field, and there it
is not kept again.
-/

namespace EngineHeader

namespace Declaration.Grammar

open Token (significant)

/-! ## Fields and their comments -/

/-- A function pointer keeps a comment with the text `c`, where `inside` stands behind its closing
parenthesis, and `behind` stands behind its semicolon, which is on a line. -/
def Keeps (inside behind : List Token) (line : Nat) (c : String) : Prop :=
  (∃ t ∈ inside.head?, t.kind = .comment ∧ t.text = c) ∨
    (∀ t ∈ inside.head?, t.kind ≠ .comment) ∧
      ∃ t ∈ behind.head?, t.kind = .comment ∧ t.text = c ∧ t.position.line = line

/-- In front of `behind`, the tokens are a field, through its semicolon. -/
inductive FieldAt (d : Dialect) (behind : List Token) : List Token → Field → Prop where
  | plain {ts : List Token} {semicolon : Token} {type : BaseType} {name : String} :
    FieldOf d (significant (ts ++ [semicolon])) (.plain type name) →
    semicolon.kind = .semicolon → FieldAt d behind (ts ++ [semicolon]) (.plain type name)
  | function {ts between : List Token} {close semicolon : Token} {f : Signature}
      {comment? : Option String} :
    SignatureOf d (significant (ts ++ [close])) f → close.kind = .rightParen →
    (∀ t ∈ between, t.kind = .comment) → semicolon.kind = .semicolon →
    (∀ c, comment? = some c ↔
      Keeps (between ++ semicolon :: behind) behind semicolon.position.line c) →
    FieldAt d behind (ts ++ close :: (between ++ [semicolon])) (.function f comment?)

/-- In front of `behind`, the tokens are fields. -/
inductive FieldsAt (d : Dialect) (behind : List Token) : List Token → List Field → Prop where
  | none : FieldsAt d behind [] []
  | more {ts us : List Token} {f : Field} {fs : List Field} :
    FieldAt d (us ++ behind) ts f → FieldsAt d behind us fs → FieldsAt d behind (ts ++ us) (f :: fs)

/-! ## Declarations -/

/-- The tokens are a declaration, from its `typedef` through its semicolon.  If it is a
structure, its fields stand between the braces. -/
structure DeclarationAt (d : Dialect) (ts : List Token) (e : Declaration) : Prop where
  begins : ∃ t ∈ ts.head?, t.kind = .typedefWord
  ends : ∃ t ∈ ts.getLast?, t.kind = .semicolon
  derives : ∃ bare, DeclarationOf d (significant ts) bare ∧ e.withoutComments? = some bare
  fields : ∀ s, e = .struct s → ∃ front l inside between r rest,
    ts = front ++ l :: (inside ++ (between ++ r :: rest)) ∧
      (∀ t ∈ front, t.kind ≠ .leftBrace) ∧ l.kind = .leftBrace ∧
      FieldsAt d (between ++ r :: rest) inside s.fields ∧
      (∀ t ∈ between, t.kind = .comment) ∧ r.kind = .rightBrace

/-- The tokens are declarations, with comments between them. -/
inductive HeaderAt (d : Dialect) : List Token → List Declaration → Prop where
  | nil : HeaderAt d [] []
  | comment {t : Token} {ts : List Token} {ds : List Declaration} :
    t.kind = .comment → HeaderAt d ts ds → HeaderAt d (t :: ts) (.comment t.text :: ds)
  | declaration {ts us : List Token} {e : Declaration} {ds : List Declaration} :
    DeclarationAt d ts e → HeaderAt d us ds → HeaderAt d (ts ++ us) (e :: ds)

/-! ## What stands behind -/

/-- Of what stands behind a field only the first token matters. -/
theorem FieldAt.of_head {d : Dialect} {behind other ts : List Token} {f : Field}
    (h : FieldAt d behind ts f) (hhead : behind.head? = other.head?) : FieldAt d other ts f := by
  cases h with
  | plain hf hsemi => exact .plain hf hsemi
  | @function ts between close semicolon f comment? hf hclose hbetween hsemi hkeeps =>
    refine .function hf hclose hbetween hsemi fun c => (hkeeps c).trans ?_
    have hinside : (between ++ semicolon :: behind).head? =
        (between ++ semicolon :: other).head? := by
      cases between with
      | nil => rfl
      | cons t between => rfl
    rw [Keeps, Keeps, hhead, hinside]

theorem FieldsAt.of_head {d : Dialect} {behind other ts : List Token} {fs : List Field}
    (h : FieldsAt d behind ts fs) (hhead : behind.head? = other.head?) :
    FieldsAt d other ts fs := by
  induction h with
  | none => exact .none
  | @more ts us f fs hf _ ih =>
    refine .more (hf.of_head ?_) ih
    rw [List.head?_append, List.head?_append, hhead]

end Declaration.Grammar

/-! ## The comments that are kept -/

/-- The comment that a field keeps. -/
def Declaration.Field.comment? : Field → Option String
  | .plain _ _ => none
  | .function _ comment? => comment?

/-- The comments that a declaration keeps, in order. -/
def Declaration.commentTexts : Declaration → List String
  | .comment text => [text]
  | .struct s => s.fields.filterMap Field.comment?
  | _ => []

/-- The texts of the comments among tokens. -/
def Token.commentTexts (tokens : List Token) : List String :=
  (tokens.filter (·.kind = .comment)).map (·.text)

theorem Token.commentTexts_append (ts us : List Token) :
    commentTexts (ts ++ us) = commentTexts ts ++ commentTexts us := by
  rw [commentTexts, List.filter_append, List.map_append]
  rfl

theorem Token.commentTexts_sublist {ts us : List Token} (h : ts.Sublist us) :
    (commentTexts ts).Sublist (commentTexts us) := (h.filter _).map _

/-- A comment in front of tokens is the first of their comments. -/
theorem Token.commentTexts_of_head {ts : List Token} {t : Token} (ht : t ∈ ts.head?)
    (hk : t.kind = .comment) {texts : List String}
    (h : texts.Sublist (commentTexts (ts.dropWhile (·.kind = .comment)))) :
    (t.text :: texts).Sublist (commentTexts ts) := by
  obtain ⟨us, rfl⟩ : ∃ us, ts = t :: us := List.head?_eq_some_iff.mp ht
  have hdrop : (t :: us).dropWhile (·.kind = .comment) = us.dropWhile (·.kind = .comment) :=
    List.dropWhile_cons_of_pos (by simpa using hk)
  have htexts : commentTexts (t :: us) = t.text :: commentTexts us := by
    simp [commentTexts, hk]
  rw [hdrop] at h
  rw [htexts]
  exact (h.trans (commentTexts_sublist (List.dropWhile_sublist _))).cons_cons _

namespace Declaration.Grammar

variable {d : Dialect} {ts behind : List Token}

/-- What stands behind a token that is not a comment is behind the comments in front. -/
theorem sublist_dropWhile {t : Token} (ht : t.kind ≠ .comment) (front back : List Token) :
    back.Sublist ((front ++ t :: back).dropWhile (·.kind = .comment)) := by
  induction front with
  | nil =>
    rw [List.nil_append, List.dropWhile_cons_of_neg (by simpa using ht)]
    exact List.sublist_cons_self _ _
  | cons u front ih =>
    rw [List.cons_append, List.dropWhile_cons]
    split
    · exact ih
    · refine List.Sublist.cons _ ?_
      exact (List.sublist_append_right [t] back).trans (List.sublist_append_right front _)

/-- The comment of a field is one of those behind its first token, up to the first that is
behind its semicolon. -/
theorem FieldAt.sublist {f : Field} (h : FieldAt d behind ts f) {texts : List String}
    (ht' : texts.Sublist (Token.commentTexts (behind.dropWhile (·.kind = .comment)))) :
    (f.comment?.toList ++ texts).Sublist
      (Token.commentTexts ((ts ++ behind).dropWhile (·.kind = .comment))) := by
  have hall : texts.Sublist (Token.commentTexts behind) :=
    ht'.trans (Token.commentTexts_sublist (List.dropWhile_sublist _))
  cases h with
  | @plain ts semicolon type name _ hsemi =>
    have hne : semicolon.kind ≠ .comment := by rw [hsemi]; decide
    rw [List.append_assoc, List.singleton_append]
    exact hall.trans (Token.commentTexts_sublist (sublist_dropWhile hne ts behind))
  | @function ts between close semicolon f comment? _ hclose hbetween hsemi hkeeps =>
    have hclose' : close.kind ≠ .comment := by rw [hclose]; decide
    have hsemi' : semicolon.kind ≠ .comment := by rw [hsemi]; decide
    have hbehind : Token.commentTexts (between ++ semicolon :: behind) =
        Token.commentTexts between ++ Token.commentTexts behind := by
      rw [List.append_cons, Token.commentTexts_append, Token.commentTexts_append]
      simp [Token.commentTexts, hsemi']
    have hlist : ts ++ close :: (between ++ [semicolon]) ++ behind =
        ts ++ close :: (between ++ semicolon :: behind) := by simp
    rw [hlist]
    refine .trans ?_ (Token.commentTexts_sublist (sublist_dropWhile hclose' ts _))
    rw [hbehind]
    cases comment? with
    | none => exact hall.trans (List.sublist_append_right _ _)
    | some c =>
      rcases (hkeeps c).mp rfl with ⟨t, ht, hk, rfl⟩ | ⟨_, t, ht, hk, rfl, _⟩
      · refine List.Sublist.append ?_ hall
        cases between with
        | nil =>
          cases ht
          exact absurd hk hsemi'
        | cons u between =>
          cases ht
          exact Token.commentTexts_of_head rfl hk (List.nil_sublist _)
      · exact (Token.commentTexts_of_head ht hk ht').trans (List.sublist_append_right _ _)

theorem FieldsAt.sublist {fs : List Field} (h : FieldsAt d behind ts fs) :
    (fs.filterMap Field.comment?).Sublist
      (Token.commentTexts ((ts ++ behind).dropWhile (·.kind = .comment))) := by
  induction h with
  | none => exact List.nil_sublist _
  | @more ts us f fs hf _ ih =>
    have hlist : (f :: fs).filterMap Field.comment? =
        f.comment?.toList ++ fs.filterMap Field.comment? := by
      rw [List.filterMap_cons]
      cases f.comment? with
      | none => rfl
      | some c => rfl
    rw [hlist, List.append_assoc]
    exact hf.sublist ih

/-- The comments that a declaration keeps are some of those among its tokens. -/
theorem DeclarationAt.sublist {e : Declaration} (h : DeclarationAt d ts e) :
    e.commentTexts.Sublist (Token.commentTexts ts) := by
  obtain ⟨bare, _, hbare⟩ := h.derives
  cases e with
  | comment text => cases hbare
  | struct s =>
    obtain ⟨front, l, inside, between, r, rest, rfl, _, _, hfields, _, _⟩ := h.fields s rfl
    refine hfields.sublist.trans (Token.commentTexts_sublist ?_)
    refine (List.dropWhile_sublist _).trans ?_
    exact (List.sublist_cons_self l _).trans (List.sublist_append_right front _)
  | _ => exact List.nil_sublist _

/-- The comments that a header keeps are some of those among its tokens, in order, and each is
kept at most once. -/
theorem HeaderAt.sublist {ds : List Declaration} (h : HeaderAt d ts ds) :
    (ds.flatMap Declaration.commentTexts).Sublist (Token.commentTexts ts) := by
  induction h with
  | nil => exact List.nil_sublist _
  | @comment t ts ds hk _ ih =>
    have htexts : Token.commentTexts (t :: ts) = t.text :: Token.commentTexts ts := by
      simp [Token.commentTexts, hk]
    rw [htexts]
    exact ih.cons_cons _
  | declaration he _ ih =>
    rw [List.flatMap_cons, Token.commentTexts_append]
    exact he.sublist.append ih

end Declaration.Grammar

end EngineHeader
