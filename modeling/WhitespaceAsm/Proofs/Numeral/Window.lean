import Mathlib.Data.Nat.PSub
import WhitespaceAsm.Proofs.Numeral.Framing
import WhitespaceAsm.Proofs.Utf8.Trim

/-!
# The framing of a numeral in place

The framing of a Haskell numeral can be removed without taking the literal apart: a window closes in
on the body from both ends. Here every byte and every slice is looked up with a check of its bounds,
and an offset that goes back is checked not to fall below zero. No check fails, whatever the literal
is, and the window is that of the body that peeling leaves.

* `slice?`: a part of a text; **`Window`**, `Window.behind`: the place of a body in its literal;
* `Window.trimStart?`, `Window.trimEnd?`, **`Window.peelOne?`**, `Window.peel?`: the framing is
  removed in place, which ends for every text: `Window.lt_of_peelOne?`;
* `Window.peelOne?_ofFraming`, **`Window.peel?_ofFraming`**: the window follows the framing.
-/

namespace WhitespaceAsm.Numeral

/-! ## Texts and windows -/

/-- **The part of a text between two offsets**, when they are in order and within the text. -/
def slice? (s : Bytes) (first last : Nat) : Option Bytes :=
  if first ≤ last ∧ last ≤ s.length then some ((s.take last).drop first) else none

theorem slice?_append (x body y : Bytes) :
    slice? (x ++ (body ++ y)) x.length (x.length + body.length) = some body := by
  have htake : (x ++ (body ++ y)).take (x.length + body.length) = x ++ body := by
    rw [← List.append_assoc, ← List.length_append, List.take_left]
  rw [slice?, if_pos (by simp only [List.length_append]; omega), htake, List.drop_left]

theorem length_of_slice? {s t : Bytes} {first last : Nat} (h : slice? s first last = some t) :
    t.length = last - first := by
  unfold slice? at h
  split at h
  · next hle =>
    rw [← Option.some.inj h, List.length_drop, List.length_take, Nat.min_eq_left hle.2]
  · cases h

theorem getElem?_append_cons (x y : Bytes) (b : UInt8) : (x ++ b :: y)[x.length]? = some b := by
  rw [List.getElem?_append_right (Nat.le_refl _), Nat.sub_self, List.getElem?_cons_zero]

/-- **The place of a body** in its literal: from one offset up to another. -/
structure Window where
  first : Nat
  last : Nat
deriving DecidableEq, Repr

namespace Window

/-- The window of a body behind an opening. -/
def behind (opening body : Bytes) : Window := ⟨opening.length, opening.length + body.length⟩

section Behind

variable (x y : Bytes) (b : UInt8) (rest : Bytes) {body : Bytes}

theorem slice?_behind (body : Bytes) :
    slice? (x ++ (body ++ y)) (behind x body).first (behind x body).last = some body :=
  slice?_append x body y

theorem getElem?_behind : (x ++ (b :: rest ++ y))[(behind x (b :: rest)).first]? = some b :=
  getElem?_append_cons x _ b

theorem append_cons_append : x ++ (b :: rest ++ y) = x ++ [b] ++ (rest ++ y) := by
  rw [List.append_assoc]
  rfl

theorem behind_lt (h : body ≠ []) : (behind x body).first < (behind x body).last :=
  Nat.lt_add_of_pos_right (List.length_pos_iff.2 h)

theorem not_behind_nil_lt : ¬ (behind x []).first < (behind x []).last := Nat.lt_irrefl _

theorem behind_drop {n : Nat} (hn : n ≤ body.length) :
    ⟨(behind x body).first + n, (behind x body).last⟩
      = behind (x ++ body.take n) (body.drop n) := by
  simp only [behind, mk.injEq, List.length_append, List.length_take, List.length_drop]
  omega

theorem behind_cons :
    ⟨(behind x (b :: rest)).first + 1, (behind x (b :: rest)).last⟩ = behind (x ++ [b]) rest :=
  behind_drop x (show 1 ≤ (b :: rest).length from Nat.le_add_left 1 _)

theorem behind_dropLast (hne : body ≠ []) {beforeLast : Nat}
    (hbefore : (behind x body).last.ppred = some beforeLast) :
    ⟨(behind x body).first, beforeLast⟩ = behind x body.dropLast := by
  have hlast : beforeLast + 1 = x.length + body.length := Nat.ppred_eq_some.1 hbefore
  have hpos := List.length_pos_iff.2 hne
  rw [behind, behind, List.length_dropLast, mk.injEq]
  exact ⟨rfl, by omega⟩

end Behind

/-! ## Removing the framing in place -/

/-- Removes the spaces at the start of the body. -/
def trimStart? (s : Bytes) (w : Window) : Option Window :=
  if _h : w.first < w.last then
    match _hbody : slice? s w.first w.last with
    | none => none
    | some body =>
      let c := Utf8.decode body
      if c.valid ∧ isHaskellSpace c.codePoint then
        trimStart? s { w with first := w.first + c.length }
      else some w
  else some w
termination_by w.last - w.first
decreasing_by
  have hlength := length_of_slice? _hbody
  obtain ⟨b, rest, hcons⟩ := List.exists_cons_of_length_pos (l := body) (by omega)
  have hpos := Utf8.decode_length_pos b rest
  rw [← hcons] at hpos
  change w.last - (w.first + (Utf8.decode body).length) < w.last - w.first
  omega

/-- Removes the spaces at the end of the body. -/
def trimEnd? (s : Bytes) (w : Window) : Option Window :=
  if _h : w.first < w.last then
    match slice? s w.first w.last with
    | none => none
    | some body =>
      let c := Utf8.decodeLast body
      if _hc : c.valid ∧ isHaskellSpace c.codePoint then
        match _hlast : w.last.psub c.length with
        | none => none
        | some last => trimEnd? s { w with last }
      else some w
  else some w
termination_by w.last - w.first
decreasing_by
  have hlast : last + (Utf8.decodeLast body).length = w.last := Nat.psub_eq_some.1 _hlast
  have hpos := Utf8.length_decodeLast_pos _hc.1
  change last - w.first < w.last - w.first
  omega

theorem of_trimStart? {s : Bytes} {w v : Window} (h : trimStart? s w = some v) :
    w.first ≤ v.first ∧ v.last = w.last := by
  fun_induction trimStart? s w with
  | case1 => cases h
  | case2 w hlt body hbody c hspace ih =>
    obtain ⟨hfirst, hlast⟩ := ih h
    exact ⟨(Nat.le_add_right _ _).trans hfirst, hlast⟩
  | case3 | case4 =>
    cases h
    exact ⟨Nat.le_refl _, rfl⟩

theorem of_trimEnd? {s : Bytes} {w v : Window} (h : trimEnd? s w = some v) :
    v.first = w.first ∧ v.last ≤ w.last := by
  fun_induction trimEnd? s w with
  | case1 | case2 => cases h
  | case3 w hlt body hbody c hspace last hlast ih =>
    obtain ⟨hfirst, hle⟩ := ih h
    exact ⟨hfirst, hle.trans (Nat.psub_eq_some.1 hlast ▸ Nat.le_add_right _ _)⟩
  | case4 | case5 =>
    cases h
    exact ⟨rfl, Nat.le_refl _⟩

/-- **Removes the outermost layer**, unless the body begins and ends with something else. The outer
option is about the checks, the inner one about the layer. -/
def peelOne? (s : Bytes) (w : Window) : Option (Option Window) := do
  if w.first < w.last then
    let first ← s[w.first]?
    let beforeLast ← w.last.ppred
    let last ← s[beforeLast]?
    if first = Ascii.minus ∨ first = Ascii.plus then
      return some (← trimStart? s { w with first := w.first + 1 })
    else if first = Ascii.leftParen ∧ last = Ascii.rightParen then
      return some (← trimEnd? s (← trimStart? s ⟨w.first + 1, beforeLast⟩))
    else if first = Ascii.leftParen then
      return some (← trimStart? s { w with first := w.first + 1 })
    else if last = Ascii.rightParen then
      return some (← trimEnd? s { w with last := beforeLast })
    else return none
  else return none

/-- **A layer makes the window smaller**, whatever the text is. -/
theorem lt_of_peelOne? {s : Bytes} {w v : Window} (h : peelOne? s w = some (some v)) :
    v.last - v.first < w.last - w.first := by
  unfold peelOne? at h
  split at h
  · next hlt =>
    simp only [bind, Option.bind_eq_some_iff] at h
    obtain ⟨first, -, beforeLast, hbefore, last, -, h⟩ := h
    have hlast := Nat.ppred_eq_some.1 hbefore
    split at h
    · obtain ⟨u, htrim, h⟩ := Option.bind_eq_some_iff.1 h
      cases h
      have hstart := of_trimStart? htrim
      dsimp only at hstart
      omega
    · split at h
      · obtain ⟨u, htrim, h⟩ := Option.bind_eq_some_iff.1 h
        obtain ⟨u', htrim', h⟩ := Option.bind_eq_some_iff.1 h
        cases h
        have hstart := of_trimStart? htrim
        have hend := of_trimEnd? htrim'
        dsimp only at hstart
        omega
      · split at h
        · obtain ⟨u, htrim, h⟩ := Option.bind_eq_some_iff.1 h
          cases h
          have hstart := of_trimStart? htrim
          dsimp only at hstart
          omega
        · split at h
          · obtain ⟨u, htrim, h⟩ := Option.bind_eq_some_iff.1 h
            cases h
            have hend := of_trimEnd? htrim
            dsimp only at hend
            omega
          · cases h
  · cases h

/-- **Removes layer after layer.** -/
def peel? (s : Bytes) (w : Window) : Option Window :=
  match _h : peelOne? s w with
  | none => none
  | some none => some w
  | some (some v) => peel? s v
termination_by w.last - w.first
decreasing_by exact lt_of_peelOne? _h

/-! ## Spaces -/

theorem trimStart?_of_slice? {s : Bytes} {w : Window} {body : Bytes} (hlt : w.first < w.last)
    (hbody : slice? s w.first w.last = some body) :
    trimStart? s w =
      if (Utf8.decode body).valid ∧ isHaskellSpace (Utf8.decode body).codePoint then
        trimStart? s { w with first := w.first + (Utf8.decode body).length }
      else some w := by
  rw [trimStart?, dif_pos hlt]
  split
  · next hnone => cases hbody.symm.trans hnone
  · next body' hsome =>
    obtain rfl := Option.some.inj (hbody.symm.trans hsome)
    rfl

theorem trimEnd?_of_slice? {s : Bytes} {w : Window} {body : Bytes} (hlt : w.first < w.last)
    (hbody : slice? s w.first w.last = some body) :
    trimEnd? s w =
      if (Utf8.decodeLast body).valid ∧ isHaskellSpace (Utf8.decodeLast body).codePoint then
        (w.last.psub (Utf8.decodeLast body).length).bind fun last => trimEnd? s { w with last }
      else some w := by
  rw [trimEnd?, dif_pos hlt, hbody]
  dsimp only
  split
  · split
    · next hnone => rw [hnone]; rfl
    · next last hsome => rw [hsome]; rfl
  · rfl

theorem trimStart?_behind (x body y : Bytes) :
    let blank := Utf8.takeChars isHaskellSpace body
    trimStart? (x ++ (body ++ y)) (behind x body)
      = some (behind (x ++ blank) (body.drop blank.length)) := by
  intro blank
  simp only [blank, Utf8.takeChars]
  clear blank
  induction body using Utf8.takeUnits.induct (fun c => c.valid && isHaskellSpace c.codePoint)
    generalizing x with
  | case1 =>
    rw [trimStart?, dif_neg (not_behind_nil_lt x), Utf8.takeUnits, List.append_nil, List.drop_nil]
  | case2 b rest c hspace ih =>
    have hdrop : (b :: rest).drop c.length = rest.drop (c.length - 1) := by
      obtain ⟨n, hn⟩ := Nat.exists_eq_add_of_le' (Utf8.decode_length_pos b rest)
      rw [show c.length = n + 1 from hn, List.drop_succ_cons, Nat.add_sub_cancel]
    have hwhole : x ++ (b :: rest ++ y)
        = x ++ (b :: rest).take c.length ++ ((rest.drop (c.length - 1)) ++ y) := by
      rw [List.append_assoc, ← List.append_assoc ((b :: rest).take c.length),
        Utf8.take_append_drop_unit]
    rw [trimStart?_of_slice? (behind_lt x (List.cons_ne_nil b rest)) (slice?_behind x y _),
      if_pos (by simpa [c] using hspace), behind_drop x (Utf8.decode_length_le b rest), hdrop,
      hwhole, ih]
    have hlength : ((b :: rest).take c.length).length = c.length :=
      List.length_take_of_le (Utf8.decode_length_le b rest)
    rw [Utf8.takeUnits, if_pos hspace, List.append_assoc, List.length_append, ← List.drop_drop,
      hlength, hdrop]
  | case3 b rest c hspace =>
    rw [trimStart?_of_slice? (behind_lt x (List.cons_ne_nil b rest)) (slice?_behind x y _),
      if_neg (by simpa [c] using hspace), Utf8.takeUnits, if_neg hspace, List.append_nil]
    rfl

theorem trimEnd?_behind (x body y : Bytes) :
    trimEnd? (x ++ (body ++ y)) (behind x body)
      = some (behind x (Utf8.trimEnd isHaskellSpace body)) := by
  induction body using Utf8.trimEnd.induct isHaskellSpace generalizing y with
  | case1 body c hspace ih =>
    obtain ⟨hne, hchar⟩ := hspace
    have hmax : max 1 c.length = c.length := Nat.max_eq_right (Utf8.length_decodeLast_pos hchar.1)
    have hle : c.length ≤ body.length := hmax ▸ Utf8.max_length_decodeLast_le hne
    have htrim : Utf8.trimEnd isHaskellSpace body
        = Utf8.trimEnd isHaskellSpace (body.take (body.length - max 1 c.length)) := by
      rw [Utf8.trimEnd, dif_pos ⟨hne, hchar⟩]
    rw [hmax] at ih htrim
    have hlast : (behind x body).last.psub c.length = some (x.length + (body.length - c.length)) :=
      Nat.psub_eq_some.2 (show _ = x.length + body.length by omega)
    have hwindow : (⟨(behind x body).first, x.length + (body.length - c.length)⟩ : Window)
        = behind x (body.take (body.length - c.length)) := by
      rw [behind, behind, List.length_take_of_le (Nat.sub_le _ _)]
    have hwhole : x ++ (body ++ y) = x ++ (body.take (body.length - c.length) ++
        (body.drop (body.length - c.length) ++ y)) := by
      rw [← List.append_assoc (body.take _), List.take_append_drop]
    rw [trimEnd?_of_slice? (behind_lt x hne) (slice?_behind x y _), if_pos hchar, hlast,
      Option.bind_some, hwindow, hwhole, ih, htrim]
  | case2 body c hspace =>
    have htrim : Utf8.trimEnd isHaskellSpace body = body := by rw [Utf8.trimEnd, dif_neg hspace]
    rw [htrim]
    by_cases hne : body = []
    · rw [trimEnd?, dif_neg (hne ▸ Nat.lt_irrefl _)]
    · rw [trimEnd?_of_slice? (behind_lt x hne) (slice?_behind x y _),
        if_neg fun hchar => hspace ⟨hne, hchar⟩]

/-! ## Layers -/

/-- **The window of the body** in the literal of a framing. -/
def ofFraming (f : Framing) : Window := behind f.opening f.body

theorem trimStart?_ofFraming (f : Framing) :
    trimStart? f.whole (ofFraming f) = some (ofFraming f.trimStart) :=
  trimStart?_behind f.opening f.body f.closing

theorem trimEnd?_ofFraming (f : Framing) :
    trimEnd? f.whole (ofFraming f) = some (ofFraming f.trimEnd) :=
  trimEnd?_behind f.opening f.body f.closing

theorem ends_ofFraming {f : Framing} (h : f.body ≠ []) :
    ∃ first last beforeLast, f.body.head? = some first ∧ f.body.getLast? = some last ∧
      f.whole[(ofFraming f).first]? = some first ∧
      (ofFraming f).last.ppred = some beforeLast ∧ f.whole[beforeLast]? = some last := by
  obtain ⟨first, rest, hfirst⟩ := List.exists_cons_of_ne_nil h
  obtain ⟨init, last, hlast⟩ := (List.eq_nil_or_concat' f.body).resolve_left h
  refine ⟨first, last, (f.opening ++ init).length, ?_, ?_, ?_, ?_, ?_⟩
  · rw [hfirst, List.head?_cons]
  · rw [hlast, List.getLast?_concat]
  · rw [Framing.whole, hfirst]
    exact getElem?_append_cons f.opening (rest ++ f.closing) first
  · rw [Nat.ppred_eq_some, ofFraming, hlast, behind, List.length_append, List.length_append]
    rfl
  · rw [Framing.whole, hlast, List.append_assoc, ← List.append_assoc]
    exact getElem?_append_cons (f.opening ++ init) f.closing last

theorem peelOne?_of_ends {s : Bytes} {w : Window} {first last : UInt8} {beforeLast : Nat}
    (hlt : w.first < w.last) (hfirst : s[w.first]? = some first)
    (hbefore : w.last.ppred = some beforeLast) (hlast : s[beforeLast]? = some last) :
    peelOne? s w =
      if first = Ascii.minus ∨ first = Ascii.plus then
        (trimStart? s { w with first := w.first + 1 }).map some
      else if first = Ascii.leftParen ∧ last = Ascii.rightParen then
        ((trimStart? s ⟨w.first + 1, beforeLast⟩).bind (trimEnd? s)).map some
      else if first = Ascii.leftParen then
        (trimStart? s { w with first := w.first + 1 }).map some
      else if last = Ascii.rightParen then (trimEnd? s { w with last := beforeLast }).map some
      else some none := by
  rw [peelOne?, if_pos hlt, hfirst, hbefore]
  simp only [bind, Option.bind_some, hlast, Option.map_eq_bind, Option.bind_assoc]
  rfl

section Layers

variable {f : Framing} {b : UInt8} {rest : Bytes}

theorem trimStart?_cons (hbody : f.body = b :: rest) (sign : Sign) (errors : FlagSet Error) :
    trimStart? f.whole ⟨(ofFraming f).first + 1, (ofFraming f).last⟩
      = some (ofFraming (Framing.trimStart
          { f with sign, errors, opening := f.opening ++ [b], body := rest })) := by
  have hwhole : f.whole = Framing.whole
      { f with sign, errors, opening := f.opening ++ [b], body := rest } := by
    simp [Framing.whole, hbody]
  rw [ofFraming, hbody, behind_cons, hwhole]
  exact trimStart?_ofFraming _

variable {beforeLast : Nat} (hbefore : (ofFraming f).last.ppred = some beforeLast)

include hbefore

theorem trimEnd?_concat (hbody : f.body = rest ++ [b]) (errors : FlagSet Error) :
    trimEnd? f.whole ⟨(ofFraming f).first, beforeLast⟩
      = some (ofFraming (Framing.trimEnd
          { f with errors, body := f.body.dropLast, closing := b :: f.closing })) := by
  have hwhole : f.whole = Framing.whole
      { f with errors, body := f.body.dropLast, closing := b :: f.closing } := by
    simp [Framing.whole, hbody]
  have hwindow : (⟨(ofFraming f).first, beforeLast⟩ : Window) = behind f.opening f.body.dropLast :=
    behind_dropLast f.opening (by simp [hbody]) hbefore
  rw [hwindow, hwhole]
  exact trimEnd?_ofFraming _

/-- Two bytes of the body go with the spaces beside them. As they are not the same byte, the ends of
the window do not cross. -/
theorem trim?_pair {c : UInt8} (hbody : f.body = b :: (rest ++ [c])) (errors : FlagSet Error) :
    (trimStart? f.whole ⟨(ofFraming f).first + 1, beforeLast⟩).bind (trimEnd? f.whole)
      = some (ofFraming (Framing.trimEnd (Framing.trimStart { f with
          errors, opening := f.opening ++ [b], body := rest, closing := c :: f.closing }))) := by
  generalize hg : Framing.mk f.sign errors (f.opening ++ [b]) rest (c :: f.closing) = g
  have hwhole : f.whole = g.whole := by
    rw [← hg]
    simp [Framing.whole, hbody]
  have hwindow : (⟨(ofFraming f).first + 1, beforeLast⟩ : Window) = ofFraming g := by
    have hcons := behind_cons f.opening b (rest ++ [c])
    rw [← hbody] at hcons
    have hlast : (behind (f.opening ++ [b]) (rest ++ [c])).last.ppred = some beforeLast := by
      rw [← hcons]
      exact hbefore
    have hboth := behind_dropLast _ (by simp) hlast
    rw [← hcons, List.dropLast_concat] at hboth
    rw [← hg]
    exact hboth
  rw [hwindow, hwhole, trimStart?_ofFraming, Option.bind_some, ← Framing.whole_trimStart g,
    trimEnd?_ofFraming]

end Layers

theorem not_opening {first : UInt8} (h : ∀ b ∈ Framing.openingMarks, first ≠ b) :
    ¬ (first = Ascii.minus ∨ first = Ascii.plus) ∧ first ≠ Ascii.leftParen :=
  ⟨not_or.2 ⟨h _ (by decide), h _ (by decide)⟩, h _ (by decide)⟩

/-- **A layer goes in place** as it goes from the framing. -/
theorem peelOne?_ofFraming (f : Framing) :
    peelOne? f.whole (ofFraming f) = some (f.peelOne?.map ofFraming) := by
  by_cases hne : f.body = []
  · rw [peelOne?, ofFraming, hne, if_neg (not_behind_nil_lt f.opening), Framing.peelOne?, hne]
    rfl
  obtain ⟨first, last, beforeLast, hhead, hgetLast, hfirst, hbefore, hlast⟩ := ends_ofFraming hne
  have hlt : (ofFraming f).first < (ofFraming f).last := behind_lt f.opening hne
  rw [peelOne?_of_ends hlt hfirst hbefore hlast]
  cases hlayer : f.peelOne? with
  | none =>
    obtain ⟨hopens, hcloses⟩ := Framing.ends_of_peelOne? hlayer
    obtain ⟨hsign, hparen⟩ := not_opening fun b hb h => hopens b hb (h ▸ hhead)
    have hclose : last ≠ Ascii.rightParen := fun h => hcloses (h ▸ hgetLast)
    rw [if_neg hsign, if_neg (not_and_of_not_left _ hparen), if_neg hparen, if_neg hclose]
    rfl
  | some g =>
    cases Framing.layer_of_peelOne? hlayer with
    | minus hbody =>
      obtain rfl : Ascii.minus = first := by simpa [hbody] using hhead
      rw [if_pos (.inl rfl)]
      exact congrArg (Option.map some) (trimStart?_cons hbody _ _)
    | plus hbody =>
      obtain rfl : Ascii.plus = first := by simpa [hbody] using hhead
      rw [if_pos (.inr rfl)]
      exact congrArg (Option.map some) (trimStart?_cons hbody _ _)
    | @pair rest hbody =>
      obtain rfl : Ascii.leftParen = first := by simpa [hbody] using hhead
      rw [hbody, ← List.cons_append, List.getLast?_concat] at hgetLast
      obtain rfl := Option.some.inj hgetLast
      rw [if_neg (by decide), if_pos ⟨rfl, rfl⟩, Framing.peelPair, List.dropLast_concat]
      exact congrArg (Option.map some) (trim?_pair hbefore hbody _)
    | left hbody hcloses =>
      obtain rfl : Ascii.leftParen = first := by simpa [hbody] using hhead
      have hclose : last ≠ Ascii.rightParen := fun h => hcloses (h ▸ hgetLast)
      rw [if_neg (by decide), if_neg (not_and_of_not_right _ hclose), if_pos rfl]
      exact congrArg (Option.map some) (trimStart?_cons hbody _ _)
    | right hbody hopens =>
      obtain rfl : Ascii.rightParen = last := by simpa [hbody] using hgetLast
      obtain ⟨hsign, hparen⟩ := not_opening fun b hb h => hopens b hb (h ▸ hhead)
      rw [if_neg hsign, if_neg (not_and_of_not_left _ hparen), if_neg hparen, if_pos rfl]
      exact congrArg (Option.map some) (trimEnd?_concat hbefore hbody _)

/-- **All layers go in place** as they go from the framing. -/
theorem peel?_ofFraming (f : Framing) : peel? f.whole (ofFraming f) = some (ofFraming f.peel) := by
  induction f using Framing.peel.induct with
  | case1 f hnone =>
    rw [Framing.peel_of_none hnone, peel?]
    have hstep := peelOne?_ofFraming f
    rw [hnone] at hstep
    split
    · next heq => cases heq.symm.trans hstep
    · rfl
    · next v heq => cases heq.symm.trans hstep
  | case2 f g hsome ih =>
    have hstep := peelOne?_ofFraming f
    rw [hsome] at hstep
    rw [Framing.whole_of_peelOne? hsome] at ih
    rw [Framing.peel_of_some hsome, peel?]
    split
    · next heq => cases heq.symm.trans hstep
    · next heq => cases heq.symm.trans hstep
    · next v heq =>
      cases heq.symm.trans hstep
      exact ih

end Window

end WhitespaceAsm.Numeral
