import CucumberExpression.Basic
import CucumberExpression.ParameterTypes
import CucumberExpression.Validator
import CucumberExpression.Parser
import CucumberExpression.Regex
import CucumberExpression.Transform
import CucumberExpression.Alternation
import CucumberExpression.Progress
import CucumberExpression.Termination
import CucumberExpression.PatternValidity
import CucumberExpression.Substitution
import CucumberExpression.ScanModes
import CucumberExpression.Literals
import CucumberExpression.Pattern
import CucumberExpression.Meaning
import CucumberExpression.ParameterMeaning
import CucumberExpression.PatternCheck
import CucumberExpression.Words
import CucumberExpression.ParserRun
import CucumberExpression.Compiler
