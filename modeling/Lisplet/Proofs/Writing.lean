import Lisplet.Proofs.Cutoff
import Lisplet.Proofs.Equations
import Lisplet.Proofs.ReadBack

/-!
# Texts written in pieces

A value is printed piece by piece, without making its text first. If it has a text, this
comes to the same: the bytes that the sink takes and the end of the writing are those of
the whole text written at once, also where the sink is full before its end.
-/

namespace Lisplet

/-! ## Texts in two parts -/

namespace Sink

variable {bytes a : ByteArray} {n : Nat}

theorem write_fits (h : a.size ≤ n) :
    (⟨bytes, some n⟩ : Sink).write a = (true, ⟨bytes ++ a, some (n - a.size)⟩) := by
  simp [write, h]

theorem write_refused (h : ¬ a.size ≤ n) :
    (⟨bytes, some n⟩ : Sink).write a = (false, ⟨bytes ++ a.extract 0 n, some 0⟩) := by
  simp [write, h]

theorem write_append (s : Sink) (a b : ByteArray) :
    s.write (a ++ b) = if (s.write a).1 then (s.write a).2.write b else s.write a := by
  obtain ⟨bytes, _ | n⟩ := s
  · simp [write, ByteArray.append_assoc]
  by_cases ha : a.size ≤ n
  · rw [write_fits ha, if_pos rfl]
    by_cases hb : b.size ≤ n - a.size
    · rw [write_fits (by rw [ByteArray.size_append]; omega), write_fits hb, ByteArray.append_assoc,
        ByteArray.size_append, Nat.sub_sub]
    · have hfront : (a ++ b).extract 0 n = a ++ b.extract 0 (n - a.size) := by
        have hall : a.extract 0 n = a := upTo_bytes (s := ⟨a, none⟩) ha
        rw [ByteArray.extract_append, Nat.zero_sub, hall]
      rw [write_refused (by rw [ByteArray.size_append]; omega), write_refused hb, hfront,
        ByteArray.append_assoc]
  · rw [write_refused ha, if_neg Bool.false_ne_true,
      write_refused (by rw [ByteArray.size_append]; omega), extract_append_of_le b (by omega)]

end Sink

namespace Eval

theorem write_eq (text : String) (span : Span) (m : Machine) :
    write text span m = ended (if (m.sink.write text.toUTF8).1 then none
      else some (.error (.output Sink.refusal span))) { m with sink := (m.sink.write text.toUTF8).2 } := by
  obtain ⟨heap, stack, sink, log⟩ := m
  unfold write
  dsimp only
  split <;> simp_all [ended]

theorem write_empty (span : Span) : write "" span = pure () := by
  funext m
  have hnone : m.sink.write "".toUTF8 = (true, m.sink) := by
    obtain ⟨heap, stack, ⟨bytes, _ | n⟩, log⟩ := m <;> simp [Sink.write]
  rw [write_eq, hnone]
  rfl

theorem write_append (a b : String) (span : Span) :
    write (a ++ b) span = (do write a span; write b span) := by
  funext m
  have hparts : m.sink.write (a ++ b).toUTF8 = _ := m.sink.write_append a.toUTF8 b.toUTF8
  change _ = EStateM.bind _ _ m
  rw [EStateM.bind, write_eq, write_eq, hparts]
  cases hw : m.sink.write a.toUTF8 with
  | mk complete sink =>
    cases complete with
    | true => exact (write_eq b span { m with sink := sink }).symm
    | false => rfl

end Eval

/-! ## Pieces -/

/-- With some more fuel, the pieces are written as `text` is, whatever comes behind them. -/
def Heap.Spells (h : Heap) (ps : List Piece) (text : String) : Prop :=
  ∃ n, ∀ (span : Span) (fuel : Nat) (rest : List Piece) (m : Machine), m.heap.objects = h.objects →
    Eval.writePieces span (fuel + n) (ps ++ rest) m =
      (Eval.write text span >>= fun _ => Eval.writePieces span fuel rest) m

namespace Heap.Spells

variable {h : Heap} {ps qs : List Piece} {a b : String}

theorem nil : h.Spells [] "" := by
  refine ⟨0, fun span fuel rest m _ => ?_⟩
  rw [Eval.write_empty]
  rfl

theorem text (s : String) : h.Spells [.text s] s := by
  refine ⟨1, fun span fuel rest m _ => ?_⟩
  rw [← Eval.writePieces_text]
  rfl

theorem append (ha : h.Spells ps a) (hb : h.Spells qs b) : h.Spells (ps ++ qs) (a ++ b) := by
  obtain ⟨n, hn⟩ := ha
  obtain ⟨k, hk⟩ := hb
  refine ⟨k + n, fun span fuel rest m hm => ?_⟩
  rw [List.append_assoc, ← Nat.add_assoc, hn span (fuel + k) (qs ++ rest) m hm, Eval.write_append, bind_assoc]
  change EStateM.bind _ _ m = EStateM.bind _ _ m
  rw [EStateM.bind, EStateM.bind, Eval.write_eq]
  -- nothing but the sink changes, so the second part stands on the same objects
  cases (m.sink.write a.toUTF8).1 with
  | true => exact hk span fuel rest _ hm
  | false => rfl

theorem value {v : Option Value} (hv : h.Spells (h.pieces v) a) : h.Spells [.value v] a := by
  obtain ⟨n, hn⟩ := hv
  refine ⟨n + 1, fun span fuel rest m hm => ?_⟩
  rw [← hn span fuel rest m hm, ← pieces_congr hm v]
  rfl

theorem items {f : Option Value → Option Datum} (hf : ∀ v d, f v = some d → h.Spells [.value v] d.render) :
    ∀ {vs : List (Option Value)} {ds : List Datum}, vs.mapM f = some ds →
      h.Spells (Piece.ofItems vs) (Datum.writeItems "" ds)
  | [], ds, hds => by
    obtain rfl : [] = ds := by simpa using hds
    exact nil
  | v :: vs, ds, hds => by
    obtain ⟨d, ds', hd, hds', rfl⟩ := mapM_cons_inv hds
    rw [Datum.writeItems, Datum.writeItems_eq, Datum.write_eq, String.empty_append]
    exact ((text " ").append (hf v d hd)).append (items hf hds')

theorem entries {f : Option Value → Option Datum}
    (hf : ∀ v d, f v = some d → h.Spells [.value v] d.render) :
    ∀ {es : List (String × Option Value)} {ds : List (String × Datum)},
      (es.mapM fun e => (f e.2).map fun d => (e.1, d)) = some ds →
        h.Spells (Piece.ofEntries es) (Datum.writeEntries "" ds)
  | [], ds, hds => by
    obtain rfl : [] = ds := by simpa using hds
    exact nil
  | (key, v) :: es, ds, hds => by
    obtain ⟨e, ds', he, hds', rfl⟩ := mapM_cons_inv hds
    obtain ⟨d, hd, rfl⟩ := Option.map_eq_some_iff.mp he
    rw [Datum.writeEntries, Datum.writeEntries_eq, Datum.write_eq, String.empty_append]
    exact (((text (key ++ ": ")).append (hf v d hd)).append (text ", ")).append (entries hf hds')

theorem row {f : Option Value → Option Datum} (hf : ∀ v d, f v = some d → h.Spells [.value v] d.render)
    (opening : String) {vs : List (Option Value)} {ds : List Datum} (hds : vs.mapM f = some ds) :
    h.Spells (.text opening :: Piece.ofItems vs ++ [.text ")"]) (Datum.writeItems opening ds ++ ")") := by
  rw [Datum.writeItems_eq]
  exact ((text opening).append (items hf hds)).append (text ")")

end Heap.Spells

namespace Heap

variable {h : Heap}

theorem spells_viewWithin {fuel : Nat} {path : List Ref} {v : Option Value} {d : Datum}
    (hd : h.viewWithin fuel path v = some d) : h.Spells [.value v] d.render := by
  -- on the bound of the view, since what is inside a value has a view with a smaller one
  induction fuel generalizing path v d with
  | zero => cases hd
  | succ fuel ih =>
    apply Spells.value
    match v, hd with
    | none, hd | some (.bool _), hd | some (.int _), hd | some (.float _), hd | some (.str _ _), hd =>
      obtain rfl := Option.some.inj hd
      exact .text _
    | some (.tuple r), hd | some (.list r), hd =>
      rw [viewWithin] at hd
      split at hd
      · cases hd
      obtain ⟨ds, hds, rfl⟩ := Option.map_eq_some_iff.mp hd
      rw [Datum.render, Datum.write]
      exact .row (fun _ _ => ih) _ hds
    | some (.table r), hd =>
      rw [viewWithin] at hd
      split at hd
      · cases hd
      obtain ⟨ds, hds, rfl⟩ := Option.map_eq_some_iff.mp hd
      rw [Datum.render, Datum.write, Datum.writeEntries_eq]
      exact ((Spells.text "\x7b").append (.entries (fun _ _ => ih) hds)).append (.text "\x7d")

end Heap

/-- Printing a value that has a text writes this text on a line, or a string as it is. -/
theorem print_render {h : Heap} {v : Option Value} {text : String} (hv : h.render v = some text) :
    ∃ n, ∀ (span : Span) (fuel : Nat) (m : Machine), m.heap.objects = h.objects →
      Eval.print (fuel + n) v span m = Eval.write
        (match v with
          | some (.str _ s) => s
          | _ => text ++ "\n") span m := by
  obtain ⟨d, hd, rfl⟩ := Option.map_eq_some_iff.mp hv
  obtain ⟨n, hn⟩ := (Heap.spells_viewWithin hd).append (.text "\n")
  have hline (span : Span) (fuel : Nat) (m : Machine) (hm : m.heap.objects = h.objects) :
      Eval.writePieces span (fuel + n) [.value v, .text "\n"] m = Eval.write (d.render ++ "\n") span m := by
    have hwrite := hn span fuel [] m hm
    rw [show Eval.writePieces span fuel [] = pure () by cases fuel <;> rfl] at hwrite
    rw [bind_pure] at hwrite
    exact hwrite
  refine ⟨n, fun span fuel m hm => ?_⟩
  match v, hline with
  | some (.str _ s), _ => rfl
  | none, hline | some (.bool _), hline | some (.int _), hline | some (.float _), hline
  | some (.tuple _), hline | some (.list _), hline | some (.table _), hline =>
    exact hline span fuel m hm

end Lisplet
