import GraphQuery.Algebra.Basic

/-! Whether two pieces of algebra are written alike, part by part. -/

namespace GraphQuery

mutual

def AlgebraExpr.sameAs : AlgebraExpr → AlgebraExpr → Bool
  | .const s, .const t => s == t
  | .var v, .var w => v == w
  | .or a b, .or c d | .and a b, .and c d => a.sameAs c && b.sameAs d
  | .not a, .not b => a.sameAs b
  | .binary f a b, .binary g c d => f == g && a.sameAs c && b.sameAs d
  | .unary f a, .unary g b => f == g && a.sameAs b
  | .member a as, .member b bs => a.sameAs b && sameExprs as bs
  | .existence p, .existence q => p.sameAs q
  | .bound v, .bound w => v == w
  | .cond a b c, .cond a' b' c' => a.sameAs a' && b.sameAs b' && c.sameAs c'
  | .coalesce as, .coalesce bs => sameExprs as bs
  | .call f as, .call g bs => f == g && sameExprs as bs
  | _, _ => false

def sameExprs : List AlgebraExpr → List AlgebraExpr → Bool
  | [], [] => true
  | a :: as, b :: bs => a.sameAs b && sameExprs as bs
  | _, _ => false

def sameConditions : Option AlgebraExpr → Option AlgebraExpr → Bool
  | none, none => true
  | some a, some b => a.sameAs b
  | _, _ => false

def AlgebraAggregate.sameAs : AlgebraAggregate → AlgebraAggregate → Bool
  | .solutions d, .solutions e => d == e
  | .apply f a d, .apply g b e => f == g && d == e && a.sameAs b
  | _, _ => false

def sameAggregates :
    List (Variable × AlgebraAggregate) → List (Variable × AlgebraAggregate) → Bool
  | [], [] => true
  | (v, a) :: as, (w, b) :: bs => v == w && a.sameAs b && sameAggregates as bs
  | _, _ => false

def AlgebraKey.sameAs : AlgebraKey → AlgebraKey → Bool
  | .ascending a, .ascending b | .descending a, .descending b => a.sameAs b
  | _, _ => false

def sameKeys : List AlgebraKey → List AlgebraKey → Bool
  | [], [] => true
  | a :: as, b :: bs => a.sameAs b && sameKeys as bs
  | _, _ => false

def Algebra.sameAs : Algebra → Algebra → Bool
  | .basic ts, .basic us => ts == us
  | .path s p o, .path s' p' o' => s == s' && p == p' && o == o'
  | .join l r, .join l' r' | .union l r, .union l' r' | .minus l r, .minus l' r' =>
    l.sameAs l' && r.sameAs r'
  | .leftJoin l r c, .leftJoin l' r' c' => l.sameAs l' && r.sameAs r' && sameConditions c c'
  | .filter e p, .filter f q => e.sameAs f && p.sameAs q
  | .graph m p, .graph n q => m == n && p.sameAs q
  | .extend p v e, .extend q w f => p.sameAs q && v == w && e.sameAs f
  | .values vs rows, .values ws rows' => vs == ws && rows == rows'
  | .orderBy p ks, .orderBy q ls => p.sameAs q && sameKeys ks ls
  | .project p vs, .project q ws => p.sameAs q && vs == ws
  | .distinct p, .distinct q | .reduced p, .reduced q => p.sameAs q
  | .slice p m n, .slice q m' n' => p.sameAs q && m == m' && n == n'
  | .group p vs as, .group q ws bs => p.sameAs q && vs == ws && sameAggregates as bs
  | .service m p s, .service n q t => m == n && p.sameAs q && s == t
  | _, _ => false

end

end GraphQuery
