import ReactiveView.Proofs.Dom.Escaping

/-!
# Reading markup back

Markup determines the tree that it was written from, up to what markup cannot show: the children of
void elements, empty texts, and where a text ends and the next one begins. No text and no attribute
value can be taken for markup, and no markup is lost in them.
-/

namespace ReactiveView

namespace Tree

/-! ## Names -/

/-- A tag or an attribute may have this name. -/
def IsName (s : String) : Prop :=
  s ≠ "" ∧ ∀ c ∈ s.toList, c ∉ [' ', '<', '>', '/', '=', '"']

instance (s : String) : Decidable (IsName s) :=
  have : Decidable (∀ c ∈ s.toList, c ∉ [' ', '<', '>', '/', '=', '"']) := List.decidableBAll _ _
  inferInstanceAs (Decidable (_ ∧ _))

mutual

/-- All tags and attributes have names. -/
def Named : Tree → Prop
  | .text _ => True
  | .element tag attributes children =>
    IsName tag ∧ (∀ entry ∈ attributes, IsName entry.1) ∧ NamedAll children

def NamedAll : List Tree → Prop
  | [] => True
  | t :: ts => t.Named ∧ NamedAll ts

end

mutual

def decidableNamed : (t : Tree) → Decidable t.Named
  | .text _ => isTrue trivial
  | .element tag attributes children =>
    have := decidableNamedAll children
    inferInstanceAs
      (Decidable (IsName tag ∧ (∀ entry ∈ attributes, IsName entry.1) ∧ NamedAll children))

def decidableNamedAll : (ts : List Tree) → Decidable (NamedAll ts)
  | [] => isTrue trivial
  | t :: ts =>
    have := decidableNamed t
    have := decidableNamedAll ts
    inferInstanceAs (Decidable (t.Named ∧ NamedAll ts))

end

instance : DecidablePred Named := decidableNamed

/-! ## Normal forms -/

/-- Put a text before trees, merged with a text that they begin with. -/
def prepend (s : String) : List Tree → List Tree
  | .text s' :: ts => .text (s ++ s') :: ts
  | ts => .text s :: ts

/-- Put a tree before others, without an empty text and without two texts side by side. -/
def joined : Tree → List Tree → List Tree
  | .text s, ts => if s = "" then ts else prepend s ts
  | .element tag attributes children, ts => .element tag attributes children :: ts

mutual

/-- The tree without children of void elements and empty texts, and with texts side by side merged. -/
def normalise : Tree → Tree
  | .text s => .text s
  | .element tag attributes children =>
    .element tag attributes (if tag ∈ voidTags then [] else normaliseAll children)

def normaliseAll : List Tree → List Tree
  | [] => []
  | t :: ts => joined t.normalise (normaliseAll ts)

end

/-- What trees or their markup begin with: a text, an element, or what ends them. -/
inductive Lead where
  | text
  | element
  | ending
  deriving DecidableEq

def leading : List Tree → Lead
  | [] => .ending
  | .text _ :: _ => .text
  | .element _ _ _ :: _ => .element

mutual

/-- Void elements have no children, no text is empty, and no two texts stand side by side. -/
def Normal : Tree → Prop
  | .text _ => True
  | .element tag _ children => (tag ∈ voidTags → children = []) ∧ NormalAll children

def NormalAll : List Tree → Prop
  | [] => True
  | .text s :: ts => s ≠ "" ∧ leading ts ≠ .text ∧ NormalAll ts
  | t :: ts => t.Normal ∧ NormalAll ts

end

theorem normalAll_prepend {s : String} {ts : List Tree} (hs : s ≠ "") (hts : NormalAll ts) :
    NormalAll (prepend s ts) := by
  match ts, hts with
  | [], _ => exact ⟨hs, Lead.noConfusion, trivial⟩
  | .text s' :: ts, hts =>
    refine ⟨?_, hts.2⟩
    simp [hs]
  | .element tag attributes children :: ts, hts => exact ⟨hs, Lead.noConfusion, hts⟩

theorem normalAll_joined {t : Tree} {ts : List Tree} (ht : t.Normal) (hts : NormalAll ts) :
    NormalAll (joined t ts) := by
  cases t with
  | element tag attributes children => exact ⟨ht, hts⟩
  | text s =>
    rw [joined]
    split_ifs with hs
    · exact hts
    · exact normalAll_prepend hs hts

mutual

theorem normal_normalise (t : Tree) : t.normalise.Normal := by
  cases t with
  | text s => trivial
  | element tag attributes children =>
    refine ⟨fun hvoid => if_pos hvoid, ?_⟩
    split_ifs
    · trivial
    · exact normalAll_normaliseAll children

theorem normalAll_normaliseAll (ts : List Tree) : NormalAll (normaliseAll ts) := by
  cases ts with
  | nil => trivial
  | cons t ts => exact normalAll_joined (normal_normalise t) (normalAll_normaliseAll ts)

end

theorem namedAll_prepend {s : String} {ts : List Tree} (hts : NamedAll ts) :
    NamedAll (prepend s ts) := by
  match ts, hts with
  | [], _ => exact ⟨trivial, trivial⟩
  | .text s' :: ts, hts => exact ⟨trivial, hts.2⟩
  | .element tag attributes children :: ts, hts => exact ⟨trivial, hts⟩

theorem namedAll_joined {t : Tree} {ts : List Tree} (ht : t.Named) (hts : NamedAll ts) :
    NamedAll (joined t ts) := by
  cases t with
  | element tag attributes children => exact ⟨ht, hts⟩
  | text s =>
    rw [joined]
    split_ifs with hs
    · exact hts
    · exact namedAll_prepend hts

mutual

theorem named_normalise {t : Tree} (ht : t.Named) : t.normalise.Named := by
  cases t with
  | text s => trivial
  | element tag attributes children =>
    refine ⟨ht.1, ht.2.1, ?_⟩
    split_ifs
    · trivial
    · exact namedAll_normaliseAll ht.2.2

theorem namedAll_normaliseAll {ts : List Tree} (hts : NamedAll ts) : NamedAll (normaliseAll ts) := by
  cases ts with
  | nil => trivial
  | cons t ts => exact namedAll_joined (named_normalise hts.1) (namedAll_normaliseAll hts.2)

end

/-! ## Markup of normal forms -/

theorem markupAll_prepend (s : String) (ts : List Tree) :
    markupAll (prepend s ts) = escapeText s.toList ++ markupAll ts := by
  match ts with
  | [] => rfl
  | .text s' :: ts =>
    simp only [prepend, markupAll, markup, String.toList_append, escapeText_eq_flatMap,
      List.flatMap_append, List.append_assoc]
  | .element tag attributes children :: ts => rfl

theorem markupAll_joined (t : Tree) (ts : List Tree) :
    markupAll (joined t ts) = markup t ++ markupAll ts := by
  cases t with
  | element tag attributes children => rfl
  | text s =>
    rw [joined]
    split_ifs with hs
    · subst hs
      rfl
    · exact markupAll_prepend s ts

mutual

/-- Markup does not show what normal forms leave out. -/
theorem markup_normalise (t : Tree) : t.normalise.markup = t.markup := by
  cases t with
  | text s => rfl
  | element tag attributes children =>
    simp only [normalise, markup]
    split_ifs
    · rfl
    · rw [markupAll_normaliseAll]

theorem markupAll_normaliseAll (ts : List Tree) : markupAll (normaliseAll ts) = markupAll ts := by
  cases ts with
  | nil => rfl
  | cons t ts =>
    rw [normaliseAll, markupAll_joined, markup_normalise, markupAll_normaliseAll, markupAll]

end

/-! ## Reading up to a delimiter -/

/-- A part without delimiters, before something that begins with one, ends there. -/
theorem append_cancel_of_delimiter {stop : Char → Prop} {a b x y : List Char}
    (ha : ∀ c ∈ a, ¬ stop c) (hb : ∀ c ∈ b, ¬ stop c) (hx : ∀ c ∈ x.head?, stop c)
    (hy : ∀ c ∈ y.head?, stop c) (h : a ++ x = b ++ y) : a = b ∧ x = y := by
  induction a generalizing b with
  | nil =>
    cases b with
    | nil => exact ⟨rfl, h⟩
    | cons c b =>
      have hstop : stop c := hx c (by rw [List.nil_append] at h; rw [h]; rfl)
      exact absurd hstop (hb c (.head _))
  | cons c a ih =>
    cases b with
    | nil =>
      have hstop : stop c := hy c (by rw [List.nil_append] at h; rw [← h]; rfl)
      exact absurd hstop (ha c (.head _))
    | cons c' b =>
      obtain ⟨rfl, hrest⟩ := List.cons.inj h
      obtain ⟨rfl, hxy⟩ := ih (fun c hc => ha c (.tail _ hc)) (fun c hc => hb c (.tail _ hc)) hrest
      exact ⟨rfl, hxy⟩

theorem attributeMarkup_cancel {e e' : String × String} {x y : List Char} (he : IsName e.1)
    (he' : IsName e'.1) (h : attributeMarkup e ++ x = attributeMarkup e' ++ y) : e = e' ∧ x = y := by
  have hname {s : String} (hs : IsName s) : ∀ c ∈ s.toList, ¬ c = '=' := by
    rintro c hc rfl
    exact hs.2 _ hc (by decide)
  have hvalue (s : String) : ∀ c ∈ escapeAttribute s.toList, ¬ c = '"' := by
    rintro c hc rfl
    exact quot_not_mem_escapeAttribute _ hc
  simp only [attributeMarkup, List.cons_append, List.append_assoc, List.cons.injEq, true_and,
    List.nil_append] at h
  -- The name ends at the sign, and the value at the quotation mark.
  obtain ⟨hnames, h⟩ := append_cancel_of_delimiter (hname he) (hname he') (by simp) (by simp) h
  obtain ⟨hvalues, h⟩ := append_cancel_of_delimiter (hvalue e.2) (hvalue e'.2) (by simp) (by simp)
    (List.cons.inj (List.cons.inj h).2).2
  refine ⟨Prod.ext (String.toList_inj.1 hnames) ?_, (List.cons.inj h).2⟩
  exact String.toList_inj.1 (escapeAttribute_injective hvalues)

theorem attributes_cancel {as bs : List (String × String)} {x y : List Char}
    (has : ∀ e ∈ as, IsName e.1) (hbs : ∀ e ∈ bs, IsName e.1)
    (h : as.flatMap attributeMarkup ++ '>' :: x = bs.flatMap attributeMarkup ++ '>' :: y) :
    as = bs ∧ x = y := by
  induction as generalizing bs with
  | nil =>
    cases bs with
    | nil => exact ⟨rfl, (List.cons.inj h).2⟩
    | cons b bs => exact absurd (List.cons.inj h).1 (by decide)
  | cons a as ih =>
    cases bs with
    | nil => exact absurd (List.cons.inj h).1 (by decide)
    | cons b bs =>
      rw [List.flatMap_cons, List.flatMap_cons, List.append_assoc, List.append_assoc] at h
      obtain ⟨rfl, hrest⟩ := attributeMarkup_cancel (has a (.head _)) (hbs b (.head _)) h
      obtain ⟨rfl, hxy⟩ :=
        ih (fun e he => has e (.tail _ he)) (fun e he => hbs e (.tail _ he)) hrest
      exact ⟨rfl, hxy⟩

/-- What follows a tag begins with a blank or ends the opening tag. -/
theorem head_attributes (as : List (String × String)) (x : List Char) :
    ∀ c ∈ (as.flatMap attributeMarkup ++ '>' :: x).head?, c = ' ' ∨ c = '>' := by
  cases as with
  | nil =>
    rintro c ⟨⟩
    exact .inr rfl
  | cons a as =>
    rintro c ⟨⟩
    exact .inl rfl

theorem openingTag_cancel {tag tag' : String} {as bs : List (String × String)} {x y : List Char}
    (htag : IsName tag) (htag' : IsName tag') (has : ∀ e ∈ as, IsName e.1)
    (hbs : ∀ e ∈ bs, IsName e.1) (h : openingTag tag as ++ x = openingTag tag' bs ++ y) :
    tag = tag' ∧ as = bs ∧ x = y := by
  have hname {s : String} (hs : IsName s) : ∀ c ∈ s.toList, ¬ (c = ' ' ∨ c = '>') := by
    rintro c hc (rfl | rfl)
    · exact hs.2 _ hc (by decide)
    · exact hs.2 _ hc (by decide)
  simp only [openingTag, List.cons_append, List.append_assoc, List.cons.injEq, true_and,
    List.nil_append] at h
  obtain ⟨htags, h⟩ := append_cancel_of_delimiter (hname htag) (hname htag')
    (head_attributes as x) (head_attributes bs y) h
  exact ⟨String.toList_inj.1 htags, attributes_cancel has hbs h⟩

/-! ## What comes next -/

/-- Two characters tell what markup begins with. -/
def lead : List Char → Lead
  | [] => .ending
  | '<' :: '/' :: _ => .ending
  | '<' :: _ => .element
  | _ => .text

theorem lead_closingTag (tag : String) (x : List Char) : lead (closingTag tag ++ x) = .ending :=
  rfl

theorem lead_openingTag {tag : String} (htag : IsName tag) (as : List (String × String))
    (x : List Char) : lead (openingTag tag as ++ x) = .element := by
  obtain ⟨hne, hchars⟩ := htag
  cases hlist : tag.toList with
  | nil => exact absurd (String.toList_inj.1 hlist) hne
  | cons c cs =>
    have hslash : c ≠ '/' := by
      rintro rfl
      exact hchars '/' (hlist ▸ .head _) (by decide)
    simp [openingTag, hlist, lead, hslash]

theorem lead_escapeText {s : String} (hs : s ≠ "") (x : List Char) :
    lead (escapeText s.toList ++ x) = .text := by
  cases hescaped : escapeText s.toList with
  | nil => exact absurd (String.toList_inj.1 (escapeText_injective hescaped)) hs
  | cons c cs =>
    have hlt : c ≠ '<' := by
      rintro rfl
      exact lt_not_mem_escapeText s.toList (hescaped ▸ .head _)
    simp [lead, hlt]

theorem head_of_lead {x : List Char} (hx : lead x ≠ .text) : ∀ c ∈ x.head?, c = '<' := by
  cases x with
  | nil => simp
  | cons c x =>
    rintro _ ⟨⟩
    by_contra hc
    exact hx (by simp [lead, hc])

/-- The markup of an element, and what follows it, after the opening tag. -/
theorem markup_element_append (tag : String) (attributes : List (String × String))
    (children : List Tree) (x : List Char) :
    markup (.element tag attributes children) ++ x =
      openingTag tag attributes ++
        if tag ∈ voidTags then x else markupAll children ++ (closingTag tag ++ x) := by
  rw [markup]
  split_ifs
  · rfl
  · rw [List.append_assoc, List.append_assoc]

theorem lead_markup_element {tag : String} (htag : IsName tag)
    (attributes : List (String × String)) (children : List Tree) (x : List Char) :
    lead (markup (.element tag attributes children) ++ x) = .element := by
  rw [markup_element_append]
  exact lead_openingTag htag attributes _

theorem lead_markupAll {ts : List Tree} (hts : NamedAll ts) (hnormal : NormalAll ts)
    {x : List Char} (hx : lead x = .ending) : lead (markupAll ts ++ x) = leading ts := by
  match ts, hnormal with
  | [], _ => exact hx
  | .text s :: ts, hnormal =>
    rw [markupAll, markup, List.append_assoc]
    exact lead_escapeText hnormal.1 _
  | .element tag attributes children :: ts, _ =>
    rw [markupAll, List.append_assoc]
    exact lead_markup_element hts.1.1 attributes children _

theorem eq_nil_of_leading {ts : List Tree} (h : leading ts = .ending) : ts = [] := by
  match ts with
  | [] => rfl
  | .text s :: rest => cases h
  | .element tag attributes children :: rest => cases h

theorem exists_text_of_leading {ts : List Tree} (h : leading ts = .text) :
    ∃ s rest, ts = .text s :: rest := by
  match ts, h with
  | .text s :: rest, _ => exact ⟨s, rest, rfl⟩

theorem exists_element_of_leading {ts : List Tree} (h : leading ts = .element) :
    ∃ tag attributes children rest, ts = .element tag attributes children :: rest := by
  match ts, h with
  | .element tag attributes children :: rest, _ => exact ⟨tag, attributes, children, rest, rfl⟩

/-! ## Unique readability -/

theorem escapeText_cancel {s s' : String} {x y : List Char} (hx : lead x ≠ .text)
    (hy : lead y ≠ .text) (h : escapeText s.toList ++ x = escapeText s'.toList ++ y) :
    s = s' ∧ x = y := by
  have htext (s : String) : ∀ c ∈ escapeText s.toList, ¬ c = '<' := by
    rintro c hc rfl
    exact lt_not_mem_escapeText _ hc
  obtain ⟨htexts, hrest⟩ := append_cancel_of_delimiter (htext s) (htext s') (head_of_lead hx)
    (head_of_lead hy) h
  exact ⟨String.toList_inj.1 (escapeText_injective htexts), hrest⟩

mutual

/-- An element is read back from the front of its markup, whatever follows it. -/
theorem element_cancel (t : Tree) {u : Tree} {x y : List Char} (ht : t.Named) (hu : u.Named)
    (ht' : t.Normal) (hu' : u.Normal) (ht'' : leading [t] = .element)
    (hu'' : leading [u] = .element) (h : markup t ++ x = markup u ++ y) : t = u ∧ x = y := by
  match t, u with
  | .element tag as cs, .element tag' bs ds =>
    rw [markup_element_append, markup_element_append] at h
    obtain ⟨rfl, rfl, hrest⟩ := openingTag_cancel ht.1 hu.1 ht.2.1 hu.2.1 h
    split_ifs at hrest with hvoid
    · rw [ht'.1 hvoid, hu'.1 hvoid]
      exact ⟨rfl, hrest⟩
    · obtain ⟨rfl, hclosing⟩ := markupAll_cancel cs ht.2.2 hu.2.2 ht'.2 hu'.2
        (lead_closingTag tag x) (lead_closingTag tag y) hrest
      exact ⟨rfl, List.append_cancel_left hclosing⟩

/-- Trees are read back from the front of their markup, up to the closing tag that follows them. -/
theorem markupAll_cancel (ts : List Tree) {us : List Tree} {x y : List Char}
    (hts : NamedAll ts) (hus : NamedAll us) (hts' : NormalAll ts) (hus' : NormalAll us)
    (hx : lead x = .ending) (hy : lead y = .ending)
    (h : markupAll ts ++ x = markupAll us ++ y) : ts = us ∧ x = y := by
  have hlead : leading us = leading ts := by
    rw [← lead_markupAll hus hus' hy, ← h, lead_markupAll hts hts' hx]
  match ts with
  | [] =>
    obtain rfl := eq_nil_of_leading hlead
    exact ⟨rfl, h⟩
  | .text s :: ts =>
    obtain ⟨s', us, rfl⟩ := exists_text_of_leading hlead
    rw [markupAll, markupAll, List.append_assoc, List.append_assoc] at h
    -- No text follows a text, so each of the two ends where markup begins.
    have hends {s : String} {ts : List Tree} {x : List Char} (hts : NamedAll (.text s :: ts))
        (hts' : NormalAll (.text s :: ts)) (hx : lead x = .ending) :
        lead (markupAll ts ++ x) ≠ .text := by
      rw [lead_markupAll hts.2 hts'.2.2 hx]
      exact hts'.2.1
    obtain ⟨rfl, hrest⟩ := escapeText_cancel (hends hts hts' hx) (hends hus hus' hy) h
    obtain ⟨rfl, hxy⟩ := markupAll_cancel ts hts.2 hus.2 hts'.2.2 hus'.2.2 hx hy hrest
    exact ⟨rfl, hxy⟩
  | .element tag as cs :: ts =>
    obtain ⟨tag', bs, ds, us, rfl⟩ := exists_element_of_leading hlead
    rw [markupAll, markupAll, List.append_assoc, List.append_assoc] at h
    obtain ⟨hhead, hrest⟩ := element_cancel (.element tag as cs) hts.1 hus.1 hts'.1 hus'.1 rfl rfl h
    obtain ⟨rfl, hxy⟩ := markupAll_cancel ts hts.2 hus.2 hts'.2 hus'.2 hx hy hrest
    exact ⟨by rw [hhead], hxy⟩

end

theorem lt_mem_markup_element (tag : String) (attributes : List (String × String))
    (children : List Tree) : '<' ∈ markup (.element tag attributes children) := by
  rw [markup]
  split_ifs
  · exact .head _
  · exact .head _

/-- Normal forms that are written alike are alike. -/
theorem eq_of_markup_eq {t u : Tree} (ht : t.Named) (hu : u.Named) (ht' : t.Normal)
    (hu' : u.Normal) (h : t.markup = u.markup) : t = u := by
  match t, u with
  | .text s, .text s' =>
    rw [String.toList_inj.1 (escapeText_injective h)]
  | .text s, .element tag as cs =>
    have hlt := lt_mem_markup_element tag as cs
    rw [← h] at hlt
    exact absurd hlt (lt_not_mem_escapeText s.toList)
  | .element tag as cs, .text s =>
    have hlt := lt_mem_markup_element tag as cs
    rw [h] at hlt
    exact absurd hlt (lt_not_mem_escapeText s.toList)
  | .element tag as cs, .element tag' bs ds =>
    exact (element_cancel _ ht hu ht' hu' rfl rfl (congrArg (· ++ []) h)).1

/-- Two trees have the same markup only if they are the same, up to what markup cannot show. -/
theorem outer_eq_iff {t u : Tree} (ht : t.Named) (hu : u.Named) :
    t.outer = u.outer ↔ t.normalise = u.normalise := by
  constructor
  · intro h
    apply eq_of_markup_eq (named_normalise ht) (named_normalise hu) (normal_normalise t)
      (normal_normalise u)
    rw [markup_normalise, markup_normalise]
    exact String.ofList_injective h
  · intro h
    rw [outer, outer, ← markup_normalise t, ← markup_normalise u, h]

/-- Texts run together and a void element hides its child, but a text is not taken for an element. -/
theorem merged_outer :
    (element "p" [("title", "\"")] [text "a", text "", text "<br>", element "br" [] [text "b"]]).outer =
        (element "p" [("title", "\"")] [text "a<br>", element "br" [] []]).outer ∧
      (element "p" [] [text "<br>"]).outer ≠ (element "p" [] [element "br" [] []]).outer := by
  constructor
  · exact (outer_eq_iff (by decide) (by decide)).2 rfl
  · intro h
    have hsame := (outer_eq_iff (by decide) (by decide)).1 h
    simp [normalise, normaliseAll, joined, prepend, voidTags] at hsame

end Tree

end ReactiveView
