/-!
# The prelude

The part of the core namespace that is written in the language itself.
-/

namespace SmallLisp

/-- The text of the prelude. -/
def preludeText : String :=
"(defmacro defn [name params & body]
  (list 'def name (cons 'fn (cons name (cons params body)))))

(defmacro when [test & body]
  (list 'if test (cons 'do body)))

(defmacro when-not [test & body]
  (list 'if test nil (cons 'do body)))

(defmacro comment [& body]
  nil)

(defmacro ns [name & references]
  (list 'in-ns (list 'quote name)))

(defn identity [x] x)

(defn inc [x] (+ x 1))

(defn dec [x] (- x 1))

(defn second [coll] (first (rest coll)))

(defn zero? [n] (= n 0))

(defn empty? [coll] (nil? (seq coll)))

(defn not= [a b] (not (= a b)))
"

end SmallLisp
