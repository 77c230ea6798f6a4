import MemberOrder.Proofs.Declaration.Fronts
import MemberOrder.Proofs.Declaration.Leaves
/-! Edits of a text that leave its declarations standing: a member that declares no type may be taken
out or replaced, and something may be put behind the text. What is left of the tree is read again. Main
statement: `Edit.file_follows`. -/
namespace MemberOrder

/-- An edit of a text in pieces, told from its end. -/
structure Edit (ε σ : Type) (w : List Piece) where
  /-- What the pieces behind some place are turned into. The edits in them leave these marks. -/
  turns : List ε → List Piece → List Piece → Prop
  place : Extent → σ
  place' : Extent → σ
  gone : About Extent Extent Bool
  marks : About Extent Extent (List ε)
  keep {es : List ε} {g qs qs' : List Piece} {q : Piece} {z : Symbol} (hz : z.Stops)
    (hq : q.symbol = some z) (hw : g ++ q :: qs <:+ w) (h : turns es qs qs') :
    turns es (g ++ q :: qs) (g ++ q :: qs')
  place_eq {es es' : List ε} {ps ps' qs qs' : List Piece} (hs : turns es ps ps')
    (ht : turns es' qs qs') (hw : ps <:+ w) (hlt : (heard qs).length < (heard ps).length) :
    place ⟨(heard ps).length, (heard qs).length⟩ = place' ⟨(heard ps').length, (heard qs').length⟩
  first_eq {es : List ε} {ps ps' : List Piece} (hs : turns es ps ps') (hw : ps <:+ w)
    (hne : heard ps ≠ []) : place ⟨(heard ps).length, (heard ps).length - 1⟩ =
      place' ⟨(heard ps').length, (heard ps').length - 1⟩
  /-- A member that declares no type is taken out, or is given an end of the same sort. -/
  leaf {kind : TypeKind} {owner : String} {s t : List Symbol} {x : RawMember} {g c qs : List Piece}
    {q : Piece} {z : Symbol} {es : List ε} (hw : s <:+ heard w)
    (h : Rule.Ended w kind owner s t x g q c z) (ht : turns es (behind t.length w) qs)
    (ordered : Bool) (earlier : List RawMember) :
    gone ordered earlier x = true ∧ (∃ f, heard f = [] ∧
        turns (marks ordered earlier x ++ es) (g ++ q :: (c ++ behind t.length w)) (f ++ qs)) ∨
      gone ordered earlier x = false ∧ ∃ c', Closes z (heard c') ∧
        turns (marks ordered earlier x ++ es) (g ++ q :: (c ++ behind t.length w))
          (g ++ q :: (c' ++ qs))

open Rule

namespace Edit

variable {ε σ : Type} {w : List Piece} {E : Edit ε σ w}
variable {depth : Nat} {kind : TypeKind} {name : String} {s t : List Symbol} {es : List ε}
  {qs : List Piece}

def At (E : Edit ε σ w) (es : List ε) (s : List Symbol) (qs : List Piece) : Prop :=
  s <:+ heard w ∧ E.turns es (behind s.length w) qs

theorem At.token {p : List Symbol} {z : Symbol} (h : E.At es t qs) (hz : z.Stops)
    (hw : p ++ z :: t <:+ heard w) : ∃ g q, heard g = p ∧ heard (q :: qs) = z :: heard qs ∧
      E.At es (p ++ z :: t) (g ++ q :: qs) := by
  obtain ⟨g, q, hsplit, rfl, hq⟩ := behind_split hw
  have hsuffix := behind_suffix (heard g ++ z :: t).length w
  rw [hsplit] at hsuffix
  refine ⟨g, q, rfl, heard_cons _ hq, hw, ?_⟩
  rw [hsplit]
  exact E.keep hz hq hsuffix h.2

theorem At.keep {p : List Symbol} {z : Symbol} (h : E.At es t qs) (hz : z.Stops)
    (hw : p ++ z :: t <:+ heard w) :
    ∃ g, heard (g ++ qs) = p ++ z :: heard qs ∧ E.At es (p ++ z :: t) (g ++ qs) := by
  obtain ⟨g, q, rfl, hq, hat⟩ := h.token hz hw
  refine ⟨g ++ [q], ?_, by simpa using hat⟩
  rw [List.append_assoc, List.singleton_append, heard_append, hq]

theorem At.place_eq {es' : List ε} {ps : List Piece} (hs : E.At es s ps) (ht : E.At es' t qs)
    (hlt : t.length < s.length) :
    E.place ⟨s.length, t.length⟩ = E.place' ⟨(heard ps).length, (heard qs).length⟩ := by
  have hplace := E.place_eq hs.2 ht.2 (behind_suffix _ _)
  rw [heard_behind hs.1, heard_behind ht.1] at hplace
  exact hplace hlt

theorem At.first_eq {ps : List Piece} (hs : E.At es s ps) (hne : s ≠ []) :
    E.place ⟨s.length, s.length - 1⟩ = E.place' ⟨(heard ps).length, (heard ps).length - 1⟩ := by
  have hplace := E.first_eq hs.2 (behind_suffix _ _)
  rw [heard_behind hs.1] at hplace
  exact hplace hne

/-- Declarations up to a depth are read again, from their front `p` on. The front is the same. -/
structure Follows (E : Edit ε σ w) (depth : Nat) : Prop where
  follow {start : Nat} {m : Modifiers Extent} {s t : List Symbol} {d : RawType} {es : List ε}
    {qs : List Piece} (h : typeDecl depth start m s = .ok d t) (hw : s <:+ heard w)
    (ht : E.At es t qs) :
    ∃ p r g, s = p ++ .opening .curly :: r ∧ E.At (d.gather E.marks ++ es) r (g ++ qs) ∧
      ∀ {depth' start' m'}, (p ++ .opening .curly :: heard (g ++ qs)).length ≤ depth' →
        E.place ⟨start, t.length⟩ = E.place' ⟨start', (heard qs).length⟩ →
        m.map E.place = m'.map E.place' →
        ∃ d', typeDecl depth' start' m' (p ++ .opening .curly :: heard (g ++ qs)) =
          .ok d' (heard qs) ∧
          ∀ as, d'.map E.place' (textIn (as ++ (g ++ qs))) =
            (d.without E.gone).map E.place (textIn w)

theorem Follows.zero : E.Follows 0 := ⟨fun h => by cases h⟩

theorem modifiers_follow {p q r : List Symbol} {m : Modifiers Extent} {z : Symbol} (hz : z.Stops)
    (hm : modifiers (p ++ z :: r) = .ok m (q ++ z :: r)) (hw : p ++ z :: r <:+ heard w)
    (hr : E.At es r qs) : ∃ m', modifiers (p ++ z :: heard qs) = .ok m' (q ++ z :: heard qs) ∧
      m.map E.place = m'.map E.place' := by
  obtain ⟨up, hseam⟩ := exists_seam hz r (heard qs)
  have hm' := Near.modifiers.near hseam hm
  refine ⟨_, hm', ?_⟩
  obtain ⟨g, hheard, hs⟩ := hr.keep hz hw
  have hfirst := hs.first_eq (by simp)
  rw [hheard] at hfirst
  have hfront := modifiers_front hm
  have hfront' := modifiers_front hm'
  cases hsome : m.first? with
  | none => simp [Modifiers.map, hsome]
  | some a =>
    have ha := hfront a hsome
    have ha' := hfront' (a.map up) (by simp [Modifiers.map, hsome])
    simp only [Modifiers.map, hsome, Option.map_some]
    rw [ha', ← hfirst, ← ha]

theorem Follows.modified (hE : E.Follows depth) {m : Modifiers Extent} {s₁ : List Symbol} {d : RawType}
    (hm : modifiers s = .ok m s₁) (hd : typeDecl depth s.length m s₁ = .ok d t)
    (hw : s <:+ heard w) (ht : E.At es t qs) : ∃ p q r r' g m', s = p ++ .opening .curly :: r ∧
      s₁ = q ++ .opening .curly :: r ∧ E.At (d.gather E.marks ++ es) s (g ++ qs) ∧
      heard (g ++ qs) = p ++ .opening .curly :: r' ∧
      modifiers (p ++ .opening .curly :: r') = .ok m' (q ++ .opening .curly :: r') ∧
      ∀ depth', (q ++ .opening .curly :: r').length ≤ depth' → ∃ d',
        typeDecl depth' (p ++ .opening .curly :: r').length m' (q ++ .opening .curly :: r') =
          .ok d' (heard qs) ∧
        ∀ as, d'.map E.place' (textIn (as ++ (g ++ qs))) =
          (d.without E.gone).map E.place (textIn w) := by
  obtain ⟨c, rfl⟩ := Near.modifiers.suffix_of_ok hm
  obtain ⟨q, r, g, rfl, hr, hagain⟩ := hE.follow hd ((List.suffix_append c s₁).trans hw) ht
  have hlt : t.length < (q ++ Symbol.opening .curly :: r).length := (typeDecl_passed hd).2
  rw [← List.append_assoc] at hm hw hd
  obtain ⟨m', hm', hmap⟩ := modifiers_follow .opening hm hw hr
  obtain ⟨f, hheard, hs⟩ := hr.keep .opening hw
  have hplace := hs.place_eq ht (by simp only [List.length_append] at hlt ⊢; omega)
  rw [hheard, List.append_assoc c q (.opening .curly :: r)] at hplace
  rw [← List.append_assoc] at hheard hs
  refine ⟨c ++ q, q, r, heard (g ++ qs), f ++ g, m', by simp, rfl, by simpa using hs, hheard, hm',
    fun depth' hdepth => ?_⟩
  obtain ⟨d', hd', heq⟩ := hagain hdepth hplace hmap
  exact ⟨d', hd', fun as => by simpa using heq (as ++ f)⟩

def MemberAgain (E : Edit ε σ w) (kind : TypeKind) (name : String) (ps : List Piece)
    (v : List Symbol) (y : RawMember) : Prop :=
  ∀ depth, (heard ps).length ≤ depth → ∃ x,
    Rule.member (typeDecl depth) kind name (heard ps) = .ok x v ∧
    ∀ as, x.map E.place' (textIn (as ++ ps)) = y.map E.place (textIn w)

def MembersAgain (E : Edit ε σ w) (kind : TypeKind) (name : String) (ps : List Piece)
    (v : List Symbol) (ys : List RawMember) : Prop :=
  ∀ depth, (heard ps).length ≤ depth → ∃ xs,
    many (member? (typeDecl depth) kind name) (heard ps) = .ok xs v ∧
    ∀ as, xs.map (Member.map E.place' (textIn (as ++ ps))) = ys.map (Member.map E.place (textIn w))

section Again

variable {g ps : List Piece} {v : List Symbol} {y : RawMember} {ys : List RawMember}

theorem MembersAgain.closing (h : nextIs (.closing .curly) (heard ps)) :
    E.MembersAgain kind name ps (heard ps) [] := by
  obtain ⟨u, hu⟩ := nextIs_iff.1 h
  refine fun _ _ => ⟨[], ?_, fun _ => rfl⟩
  rw [hu]
  exact many_nil (member?_closing u)

theorem MembersAgain.behind (hys : E.MembersAgain kind name ps v ys) (hg : heard g = []) :
    E.MembersAgain kind name (g ++ ps) v ys := by
  intro depth hdepth
  rw [heard_append, hg, List.nil_append] at hdepth ⊢
  obtain ⟨xs, hxs, heqs⟩ := hys depth hdepth
  exact ⟨xs, hxs, fun as => by rw [← heqs (as ++ g), List.append_assoc]⟩

theorem MembersAgain.cons (hy : E.MemberAgain kind name (g ++ ps) (heard ps) y)
    (hys : E.MembersAgain kind name ps v ys) : E.MembersAgain kind name (g ++ ps) v (y :: ys) := by
  intro depth hdepth
  obtain ⟨x, hx, heq⟩ := hy depth hdepth
  have hlt := (Reads.member fun start m => ⟨fun h => (typeDecl_passed h).2⟩).shorter hx
  obtain ⟨xs, hxs, heqs⟩ := hys depth (hlt.le.trans hdepth)
  refine ⟨x :: xs, many_cons (member?_eq_ok_iff.2 hx) hlt hxs, fun as => ?_⟩
  have hrest := heqs (as ++ g)
  rw [List.append_assoc] at hrest
  rw [List.map_cons, List.map_cons, heq, hrest]

end Again

theorem Follows.member (hE : E.Follows depth) {x : RawMember}
    (h : Rule.member (typeDecl depth) kind name s = .ok x t) (hw : s <:+ heard w) (ht : E.At es t qs)
    (ordered : Bool) (earlier : List RawMember) :
    ∃ g, E.At (x.gather E.marks ordered earlier ++ es) s (g ++ qs) ∧
      (x.without E.gone ordered earlier = [] ∧ heard g = [] ∨
        ∃ y, x.without E.gone ordered earlier = [y] ∧ E.MemberAgain kind name (g ++ qs) (heard qs) y) := by
  obtain hleaf | ⟨m, s₁, d, hstart, hm, hdeclares, hd, rfl⟩ := (member_eq_ok_iff kind name).1 h
  · have hisLeaf := (leaf_eq_ok kind name hleaf).2
    rw [hisLeaf.gather, hisLeaf.without]
    obtain ⟨g, q, c, z, hend⟩ := exists_ended hleaf hw
    have hturns := E.leaf hw hend ht.2 ordered earlier
    rw [← hend.pieces] at hturns
    obtain ⟨hgone, f, hf, hs⟩ | ⟨hgone, c', hc', hs⟩ := hturns
    · exact ⟨f, ⟨hw, hs⟩, .inl ⟨if_pos hgone, hf⟩⟩
    · have hsplit : g ++ q :: (c' ++ qs) = g ++ q :: c' ++ qs := by simp
      have hat : E.At _ s (g ++ q :: c' ++ qs) := ⟨hw, by rwa [hsplit] at hs⟩
      obtain ⟨x', hx', heq⟩ := hend.again hc' hsplit.symm
      have hlt : t.length < s.length := (Reads.member fun _ _ => ⟨fun h => by cases h⟩).shorter hleaf
      refine ⟨g ++ q :: c', hat, .inr ⟨x, by rw [hgone]; rfl, fun depth' _ => ⟨x', ?_, ?_⟩⟩⟩
      · exact (member_eq_ok_iff kind name).2 (.inl hx')
      · exact heq (hat.place_eq ht hlt) (hat.first_eq (List.ne_nil_of_length_pos (by omega)))
  · obtain ⟨p, q, r, r', g, m', rfl, rfl, hs, hheard, hm', hagain⟩ := hE.modified hm hd hw ht
    refine ⟨g, hs, .inr ⟨.type (d.without E.gone), rfl, fun depth' hdepth => ?_⟩⟩
    have hle := (Near.modifiers.suffix_of_ok hm').length_le
    rw [hheard] at hdepth ⊢
    obtain ⟨d', hd', heq⟩ := hagain depth' (hle.trans hdepth)
    have hstart' := (Sees.memberStart.sees .opening r' r p).trans hstart
    have hdeclares' := (Sees.declaresType.sees .opening r' r q).trans hdeclares
    refine ⟨.type d', (member_eq_ok_iff kind name).2 <|
      .inr ⟨m', _, d', hstart', hm', hdeclares', hd', rfl⟩, fun as => ?_⟩
    rw [Member.map, heq]
    rfl

theorem Follows.members (hE : E.Follows depth) {xs : List RawMember} {v : List Symbol}
    (h : many (member? (typeDecl depth) kind name) s = .ok xs v) (hw : s <:+ heard w)
    (hv : E.At es v qs) (hclose : nextIs (.closing .curly) (heard qs)) (ordered : Bool)
    (earlier : List RawMember) :
    ∃ g, E.At (Member.gatherAfter E.marks ordered earlier xs ++ es) s (g ++ qs) ∧
      E.MembersAgain kind name (g ++ qs) (heard qs)
        (Member.withoutAfter E.gone ordered earlier xs) := by
  revert hw hv earlier
  refine many_induction (motive := fun s xs v => s <:+ heard w → E.At es v qs → ∀ earlier,
    ∃ g, E.At (Member.gatherAfter E.marks ordered earlier xs ++ es) s (g ++ qs) ∧
      E.MembersAgain kind name (g ++ qs) (heard qs) (Member.withoutAfter E.gone ordered earlier xs))
    member?_eq_ok (Reads.member fun start m => ⟨fun h => (typeDecl_passed h).2⟩).shorter ?done ?step h
  case done => exact fun _ _ hv _ => ⟨[], hv, .closing hclose⟩
  case step =>
    intro s x t xs v hx ih hw hv earlier
    have hpassed : Passed s t := (Keeps.member (fun _ _ => ⟨fun h => (typeDecl_passed h).1⟩) ..).passed hx
    obtain ⟨f, ht, hrest⟩ := ih (hpassed.suffix.trans hw) hv (earlier ++ [x])
    obtain ⟨g, hs, hagain⟩ := hE.member hx hw ht ordered earlier
    rw [Member.gatherAfter, Member.withoutAfter, List.append_assoc]
    refine ⟨g ++ f, by rwa [List.append_assoc], ?_⟩
    rw [List.append_assoc]
    obtain ⟨hgone, hg⟩ | ⟨y, hkept, hy⟩ := hagain
    · rw [hgone]
      exact hrest.behind hg
    · rw [hkept]
      exact .cons hy hrest

theorem Follows.bodyMembers (hE : E.Follows depth) {xs : List RawMember}
    (h : many (member? (typeDecl depth) kind name) s = .ok xs (.closing .curly :: t))
    (hw : s <:+ heard w) (ht : E.At es t qs) (ordered : Bool) :
    ∃ g, E.At (Member.gatherAfter E.marks ordered [] xs ++ es) s (g ++ qs) ∧
      E.MembersAgain kind name (g ++ qs) (.closing .curly :: heard qs)
        (Member.withoutAfter E.gone ordered [] xs) := by
  have hclosing := (Drops.many (.member? (.typeDecl depth) kind name)).suffix_of_ok h
  obtain ⟨f, hheard, hv⟩ := ht.keep (p := []) .closing (hclosing.trans hw)
  have hnext : nextIs (.closing .curly) (heard (f ++ qs)) := by
    rw [hheard]
    exact nextIs_self _ _
  obtain ⟨g, hg, hrest⟩ := hE.members h hw hv hnext ordered []
  rw [hheard] at hrest
  exact ⟨g ++ f, by rwa [List.append_assoc], by rwa [List.append_assoc]⟩

theorem Follows.body (hE : E.Follows depth) {s₃ s₄ : List Symbol} {xs : List RawMember}
    (hconstants : kind = .enum ∧ enumConstants s₃ = .ok () s₄ ∨ ¬ kind = .enum ∧ s₄ = s₃)
    (hmembers : many (member? (typeDecl depth) kind name) s₄ = .ok xs (.closing .curly :: t))
    (hw : s₃ <:+ heard w) (ht : E.At es t qs) (ordered : Bool) :
    ∃ g f, E.At (Member.gatherAfter E.marks ordered [] xs ++ es) s₃ (g ++ (f ++ qs)) ∧
      (kind = .enum ∧ enumConstants (heard (g ++ (f ++ qs))) = .ok () (heard (f ++ qs)) ∨
        ¬ kind = .enum ∧ heard (f ++ qs) = heard (g ++ (f ++ qs))) ∧
      E.MembersAgain kind name (f ++ qs) (.closing .curly :: heard qs)
        (Member.withoutAfter E.gone ordered [] xs) := by
  obtain ⟨rfl, henum⟩ | ⟨hkind, rfl⟩ := hconstants
  · obtain ⟨c, rfl, hagain⟩ | ⟨c, u, rfl, rfl, hagain⟩ := enumConstants_again henum
    · obtain ⟨f, hf, hrest⟩ := hE.bodyMembers hmembers (.trans ⟨c ++ [.mark .semicolon], by simp⟩ hw) ht ordered
      obtain ⟨g, hheard, hs⟩ := hf.keep .semicolon hw
      refine ⟨g, f, hs, .inl ⟨rfl, ?_⟩, hrest⟩
      rw [hheard]
      exact hagain _
    · obtain ⟨rfl, hu⟩ := many_member?_closing hmembers
      obtain rfl := (List.cons.inj hu).2
      obtain ⟨g, q, rfl, hq, hs⟩ := ht.token .closing hw
      refine ⟨g, [q], hs, .inl ⟨rfl, ?_⟩, ?_⟩
      · rw [List.singleton_append, heard_append, hq]
        exact hagain _
      · have hnext : nextIs (.closing .curly) (heard ([q] ++ qs)) := by
          rw [List.singleton_append, hq]
          exact nextIs_self _ _
        rw [← hq]
        exact .closing hnext
  · obtain ⟨f, hf, hrest⟩ := hE.bodyMembers hmembers hw ht ordered
    exact ⟨[], f, hf, .inr ⟨hkind, rfl⟩, hrest⟩

theorem Follows.succ (hE : E.Follows depth) : E.Follows (depth + 1) := by
  constructor
  intro start m s t d es qs h hw ht
  obtain ⟨kind, name, xs, s₃, s₄, hheader, hconstants, hmembers, rfl⟩ := typeDeclOver_eq_ok_iff.1 h
  obtain ⟨p, rfl⟩ := Near.header.suffix_of_ok hheader
  have hw₃ : s₃ <:+ heard w := .trans ⟨p ++ [.opening .curly], by simp⟩ hw
  obtain ⟨g, f, hs₃, hconstants', hrest⟩ := hE.body hconstants hmembers hw₃ ht kind.isClassLike
  refine ⟨p, s₃, g ++ f, rfl, by rwa [List.append_assoc], fun {depth' start' m'} hdepth hspan hm => ?_⟩
  rw [List.append_assoc] at hdepth ⊢
  cases depth' with
  | zero => simp at hdepth
  | succ depth' =>
    have hle : (heard (f ++ qs)).length ≤ depth' := by
      rw [heard_append g, List.length_append, List.length_cons, List.length_append] at hdepth
      omega
    obtain ⟨xs', hxs', heqs⟩ := hrest depth' hle
    have hheader' := Near.header.again .opening (q := []) hheader (heard (g ++ (f ++ qs)))
    refine ⟨_, typeDeclOver_eq_ok_iff.2 ⟨kind, name, xs', _, _, hheader', hconstants', hxs', rfl⟩,
      fun as => ?_⟩
    obtain ⟨o, hheard, hopened⟩ := hs₃.keep (p := []) .opening ((List.suffix_append p _).trans hw)
    have hlt := (body_passed hconstants hmembers).length_le
    have hbody := hopened.place_eq ht (by simp at hlt ⊢; omega)
    rw [hheard] at hbody
    simp only [List.nil_append] at hbody
    have hmembers' := heqs (as ++ g)
    rw [List.append_assoc] at hmembers'
    simp only [TypeDecl.map, TypeDecl.without, Member.mapAll_eq_map, hmembers', hm, hspan, hbody]

theorem follows (E : Edit ε σ w) (depth : Nat) : E.Follows depth := by
  induction depth with
  | zero => exact .zero
  | succ depth ih => exact ih.succ

def ItemsAgain (E : Edit ε σ w) (ps qs : List Piece) (items : List FileItem) : Prop :=
  ∃ items', Chain fileItem? (heard ps) items' (heard qs) ∧
    items'.filterMap FileItem.package? = items.filterMap FileItem.package? ∧
    ∀ as, (items'.filterMap FileItem.type?).map (TypeDecl.map E.place' (textIn (as ++ ps))) =
      (items.filterMap FileItem.type?).map fun d => (d.without E.gone).map E.place (textIn w)

theorem items_follow {items : List FileItem} {v : List Symbol} (h : many fileItem? s = .ok items v)
    (hw : s <:+ heard w) (ht : E.At es [] qs) : ∃ g,
      E.At ((items.filterMap FileItem.type?).flatMap (TypeDecl.gather E.marks) ++ es) s (g ++ qs) ∧
      E.ItemsAgain (g ++ qs) qs items := by
  revert hw
  refine (many_fileItem?_induction (motive := fun s items => s <:+ heard w → ∃ g,
      E.At ((items.filterMap FileItem.type?).flatMap (TypeDecl.gather E.marks) ++ es) s (g ++ qs) ∧
      E.ItemsAgain (g ++ qs) qs items)
    ?ending ?step h).2
  case ending => exact fun _ => ⟨[], ht, [], .nil _, rfl, fun _ => rfl⟩
  case step =>
    intro s i u is hi ih hw
    obtain ⟨f, hu, is', hchain, hpackages, htypes⟩ := ih ((fileItem?_passed hi).1.suffix.trans hw)
    obtain ⟨hnone, p, rfl, hagain⟩ | ⟨m, s₁, d, rfl, hstart, hm, hpackage, hd⟩ := fileItem?_again hi
    · obtain ⟨g, hheard, hs⟩ := hu.keep .semicolon hw
      refine ⟨g ++ f, by simpa [hnone] using hs, i :: is', ?_, ?_, fun as => ?_⟩
      · rw [List.append_assoc, hheard]
        exact .cons (hagain _) (by simp; omega) hchain
      · simp only [List.filterMap_cons, hpackages]
      · simpa [hnone] using htypes (as ++ g)
    · obtain ⟨p, q, r, r', g, m', rfl, rfl, hs, hheard, hm', hagain⟩ :=
        (E.follows _).modified hm hd hw hu
      obtain ⟨d', hd', hmap⟩ := hagain _ (le_refl _)
      have hpackage' := mt (Sees.nextIs _ |>.sees .opening r' r q).symm.trans hpackage
      have hstart' := (seesItemStart.sees .opening r' r p).trans hstart
      have hi' : fileItem? (p ++ .opening .curly :: r') = .ok (some (.type d')) (heard (f ++ qs)) := by
        rw [fileItem?_eq, hstart']
        exact modifiedItem_of_type hm' hpackage' hd'
      refine ⟨g ++ f, ?_, .type d' :: is', ?_, ?_, fun as => ?_⟩
      · simpa [FileItem.type?] using hs
      · rw [List.append_assoc, hheard]
        exact .cons hi' (fileItem?_passed hi').2 hchain
      · simpa [List.filterMap_cons, FileItem.package?] using hpackages
      · have hrest := htypes (as ++ g)
        have hfirst := hmap as
        simp only [List.append_assoc] at hrest ⊢
        simp only [List.filterMap_cons, FileItem.type?, List.map_cons, hfirst, hrest]

/-- An edit that puts no symbol behind the text leaves all of its tree but the members that are gone. -/
theorem file_follows {u : CompilationUnit Extent Extent} {v : List Symbol}
    (h : file (heard w) = .ok u v) (ht : E.turns [] (behind 0 w) qs) (hqs : heard qs = []) :
    ∃ w' u', E.turns (u.types.flatMap (TypeDecl.gather E.marks)) w w' ∧ file (heard w') = .ok u' [] ∧
      u'.map E.place' (textIn w') = (u.without E.gone).map E.place (textIn w) := by
  obtain ⟨items, hitems, rfl⟩ := file_eq_ok_iff.1 h
  have hend : E.At [] [] qs := ⟨List.nil_suffix, ht⟩
  obtain ⟨g, hw', items', hchain, hpackages, htypes⟩ :=
    E.items_follow hitems (List.suffix_refl _) hend
  have hending : many fileItem? [] = .ok [] [] := many_nil rfl
  have hitems' : many fileItem? (heard (g ++ qs)) = .ok items' [] := by
    rw [hchain.many_eq, hqs, hending]
    simp only [List.append_nil]
  have hwhole := hw'.2
  rw [behind_of_le (le_refl _), List.append_nil] at hwhole
  refine ⟨g ++ qs, _, hwhole, file_eq_ok_iff.2 ⟨items', hitems', rfl⟩, ?_⟩
  have htypes := htypes []
  rw [List.nil_append] at htypes
  simp only [CompilationUnit.map, CompilationUnit.without, hpackages, htypes, List.map_map]
  rfl

end Edit

end MemberOrder
